import Mathlib.Order.Interval.Finset.Nat
import Picat.Global.Variables

/-!
# `lex_le`, `lex_lt`: lexicographic order

The last elements are compared by `=<` or by `<`, and everything else is the same for both: `d` is 0 or 1, and `X + d ≤ Y`
is what is posted on the last elements.

* `satLexLe_iff`, `satLexLt_iff` : the assignments that are accepted.
-/

namespace Picat.Global
open Finset DvarOrInt List

variable {ι : Type}

/-- `check_args_lex`: the shorter sequence is filled up with a value below all those of the other. -/
def checkArgsLex (D : ι → Dom) (L1 L2 : List (DvarOrInt ι)) : List (DvarOrInt ι) × List (DvarOrInt ι) :=
  let N1 := L1.length
  let N2 := L2.length
  if N1 = N2 then (L1, L2)
  else if N1 < N2 then
    let Min1 := (L2.map (fdMin D)).min?.getD 0 - 1
    (L1 ++ List.replicate (N2 - N1) (int Min1), L2)
  else
    let Min1 := (L1.map (fdMin D)).min?.getD 0 - 1
    (L1, L2 ++ List.replicate (N1 - N2) (int Min1))

theorem length_checkArgsLex (D : ι → Dom) (L1 L2 : List (DvarOrInt ι)) :
    (checkArgsLex D L1 L2).1.length = (checkArgsLex D L1 L2).2.length := by
  unfold checkArgsLex
  dsimp only
  split_ifs with heq hlt
  · exact heq
  · rw [length_append, length_replicate]
    exact Nat.add_sub_of_le hlt.le
  · rw [length_append, length_replicate]
    exact (Nat.add_sub_of_le (Nat.le_of_not_lt hlt)).symm

/-! ## The decomposition -/

section
variable (d : ℤ)

/-- `A1` and `A2` have `N` elements. -/
structure LexChain (N : ℕ) (A1 A2 : List ℤ) (ReifLexLE : ℕ → Bool) : Prop where
  one : d = 0 → ReifLexLE 1 = true
  last : ReifLexLE N = true ↔ elem A1 N + d ≤ elem A2 N
  chain : ∀ I ∈ Icc 2 (N - 1), ReifLexLE I = true ↔
    elem A1 I < elem A2 I ∨ elem A1 I = elem A2 I ∧ ReifLexLE (I + 1) = true
  first : elem A1 1 < elem A2 1 ∨ elem A1 1 = elem A2 1 ∧ ReifLexLE 2 = true

/-- `lex_le_aux` and `lex_lt_aux` of the SAT module, on the values. -/
def lexAux : List ℤ → List ℤ → Prop
  | [], _ => True
  | [X], Y :: _ => X + d ≤ Y
  | [X1, X2], Y1 :: Y2 :: _ => X1 < Y1 ∨ X1 = Y1 ∧ X2 + d ≤ Y2
  | L1, L2 => ∃ ReifLexLE, LexChain d L1.length L1 L2 ReifLexLE

end

section
variable (D : ι → Dom) (L1 L2 : List (DvarOrInt ι)) (σ : ι → ℤ)

def satLexLe : Prop := lexAux 0 ((checkArgsLex D L1 L2).1.map (val σ)) ((checkArgsLex D L1 L2).2.map (val σ))

def satLexLt : Prop := lexAux 1 ((checkArgsLex D L1 L2).1.map (val σ)) ((checkArgsLex D L1 L2).2.map (val σ))

end

/-! ## The order -/

section
variable {d : ℤ}

/-- The first elements that differ, or the last ones, are in order; for empty sequences nothing is asked. -/
def LexRel (d : ℤ) : List ℤ → List ℤ → Prop
  | [], [] => True
  | [X], [Y] => X + d ≤ Y
  | X :: Xs, Y :: Ys => X < Y ∨ X = Y ∧ LexRel d Xs Ys
  | _, _ => False

section
variable {A1 A2 : List ℤ} (hlen : A1.length = A2.length) {I : ℕ}
include hlen

theorem lexRel_drop_iff (hI : I + 1 < A1.length) :
    LexRel d (A1.drop I) (A2.drop I) ↔ elem A1 (I + 1) < elem A2 (I + 1) ∨
      elem A1 (I + 1) = elem A2 (I + 1) ∧ LexRel d (A1.drop (I + 1)) (A2.drop (I + 1)) := by
  rw [drop_eq_getElem_cons (Nat.lt_of_succ_lt hI), drop_eq_getElem_cons (by omega : I < A2.length),
    elem_succ (Nat.lt_of_succ_lt hI), elem_succ (by omega : I < A2.length)]
  rw [drop_eq_getElem_cons hI, drop_eq_getElem_cons (by omega : I + 1 < A2.length)]
  rfl

theorem lexRel_drop_last (hI : A1.length = I + 1) :
    LexRel d (A1.drop I) (A2.drop I) ↔ elem A1 (I + 1) + d ≤ elem A2 (I + 1) := by
  rw [drop_eq_getElem_cons (by omega : I < A1.length), drop_eq_getElem_cons (by omega : I < A2.length),
    elem_succ (by omega : I < A1.length), elem_succ (by omega : I < A2.length), drop_eq_nil_of_le hI.le,
    drop_eq_nil_of_le (hlen.symm.trans hI).le]
  rfl

end

theorem LexChain.lexRel_drop {N : ℕ} {A1 A2 : List ℤ} {R : ℕ → Bool} (h : LexChain d (N + 1) A1 A2 R)
    (h1 : A1.length = N + 1) (h2 : A2.length = N + 1) {I : ℕ} (hI : I ≤ N) :
    1 ≤ I → (R (I + 1) = true ↔ LexRel d (A1.drop I) (A2.drop I)) := by
  induction hI using Nat.decreasingInduction with
  | self => exact fun _ => h.last.trans (lexRel_drop_last (h1.trans h2.symm) h1).symm
  | of_succ I hI ih =>
    intro hI1
    rw [h.chain (I + 1) (mem_Icc.2 ⟨by omega, by omega⟩), lexRel_drop_iff (h1.trans h2.symm) (by omega),
      ih (Nat.le_succ_of_le hI1)]

theorem exists_lexChain_iff {N : ℕ} {A1 A2 : List ℤ} (h1 : A1.length = N + 1) (h2 : A2.length = N + 1) (hN : 1 ≤ N) :
    (∃ R, LexChain d (N + 1) A1 A2 R) ↔ LexRel d A1 A2 := by
  have hfirst : LexRel d A1 A2 ↔ elem A1 1 < elem A2 1 ∨ elem A1 1 = elem A2 1 ∧ LexRel d (A1.drop 1) (A2.drop 1) :=
    lexRel_drop_iff (h1.trans h2.symm) (I := 0) (by omega)
  rw [hfirst]
  constructor
  · intro hp
    obtain ⟨R, h⟩ := hp
    rw [← h.lexRel_drop h1 h2 hN (le_refl 1)]
    exact h.first
  · intro hrel
    classical
    have hR : ∀ I, 1 ≤ I → (decide (I + 1 = 1 ∨ LexRel d (A1.drop I) (A2.drop I)) = true ↔
        LexRel d (A1.drop I) (A2.drop I)) := fun I hI => by
      rw [decide_eq_true_eq, or_iff_right (by omega)]
    refine ⟨fun I => decide (I = 1 ∨ LexRel d (A1.drop (I - 1)) (A2.drop (I - 1))), ?_, ?_, ?_, ?_⟩
    · exact fun _ => decide_eq_true (.inl rfl)
    · exact (hR N hN).trans (lexRel_drop_last (h1.trans h2.symm) h1)
    · intro I hI
      obtain ⟨hI2, hIN⟩ := mem_Icc.1 hI
      obtain ⟨I, rfl⟩ := Nat.exists_eq_add_of_le' (Nat.le_of_succ_le hI2)
      apply (hR I (by omega)).trans
      rw [lexRel_drop_iff (h1.trans h2.symm) (by omega), ← hR (I + 1) (by omega)]
      rfl
    · exact hrel.imp_right (And.imp_right (hR 1 (le_refl 1)).2)

theorem lexRel_cons {X Y : ℤ} {Xs Ys : List ℤ} (h : Xs ≠ []) :
    LexRel d (X :: Xs) (Y :: Ys) ↔ X < Y ∨ X = Y ∧ LexRel d Xs Ys := by
  obtain ⟨X2, Xs, rfl⟩ := exists_cons_of_ne_nil h
  cases Ys <;> rfl

theorem lexAux_iff {A1 A2 : List ℤ} (hlen : A1.length = A2.length) : lexAux d A1 A2 ↔ LexRel d A1 A2 := by
  match A1, A2, hlen with
  | [], [], _ => rfl
  | [X], [Y], _ => rfl
  | [X1, X2], [Y1, Y2], _ => rfl
  | X1 :: X2 :: X3 :: Xs, Y1 :: Y2 :: Y3 :: Ys, hlen =>
    exact exists_lexChain_iff rfl hlen.symm (Nat.le_add_left 1 _)

/-! ## Sequences of different lengths -/

theorem lexRel_zero_iff {A1 A2 : List ℤ} (hlen : A1.length = A2.length) : LexRel 0 A1 A2 ↔ A1 < A2 ∨ A1 = A2 := by
  induction A1 generalizing A2 with
  | nil =>
    rw [length_eq_zero_iff.1 hlen.symm]
    exact iff_of_true trivial (.inr rfl)
  | cons X Xs ih =>
    obtain ⟨Y, Ys, rfl⟩ := exists_cons_of_length_eq_add_one hlen.symm
    have hlen : Xs.length = Ys.length := Nat.succ.inj hlen
    rw [cons_lt_cons_iff, List.cons.injEq, or_assoc, ← and_or_left, ← ih hlen]
    by_cases hne : Xs = []
    · subst hne
      rw [length_eq_zero_iff.1 hlen.symm]
      change X + 0 ≤ Y ↔ X < Y ∨ X = Y ∧ True
      rw [and_true, add_zero]
      exact le_iff_lt_or_eq
    · exact lexRel_cons hne

theorem lexRel_one_iff {A1 A2 : List ℤ} (hlen : A1.length = A2.length) :
    LexRel 1 A1 A2 ↔ A1 < A2 ∨ A1 = [] ∧ A2 = [] := by
  induction A1 generalizing A2 with
  | nil =>
    rw [length_eq_zero_iff.1 hlen.symm]
    exact iff_of_true trivial (.inr ⟨rfl, rfl⟩)
  | cons X Xs ih =>
    obtain ⟨Y, Ys, rfl⟩ := exists_cons_of_length_eq_add_one hlen.symm
    have hlen : Xs.length = Ys.length := Nat.succ.inj hlen
    rw [cons_lt_cons_iff, or_iff_left fun hnil => cons_ne_nil X Xs hnil.1]
    by_cases hne : Xs = []
    · subst hne
      rw [length_eq_zero_iff.1 hlen.symm, or_iff_left fun h => lt_irrefl _ h.2]
      exact Int.add_one_le_iff
    · rw [lexRel_cons hne, ih hlen, or_iff_left fun (hnil : Xs = [] ∧ Ys = []) => hne hnil.1]

/-- A value below all others in the place of missing ones makes the first sequence smaller. -/
theorem lexRel_fill_left (hd : d ≤ 1) {p : ℤ} {Xs Ys : List ℤ} (hlt : Xs.length < Ys.length) (hp : ∀ y ∈ Ys, p < y) :
    LexRel d (Xs ++ List.replicate (Ys.length - Xs.length) p) Ys ↔ Xs < Ys := by
  induction Xs generalizing Ys with
  | nil =>
    obtain ⟨y, Ys, rfl⟩ := exists_cons_of_length_pos hlt
    have hy := hp y mem_cons_self
    apply iff_of_true _ (nil_lt_cons _ _)
    cases Ys with
    | nil => exact show p + d ≤ y by omega
    | cons y' Ys => exact .inl hy
  | cons x Xs ih =>
    obtain ⟨y, Ys, rfl⟩ := exists_cons_of_length_pos (Nat.zero_lt_of_lt hlt)
    rw [length_cons, length_cons, Nat.succ_lt_succ_iff] at hlt
    rw [length_cons, length_cons, Nat.add_sub_add_right, cons_append, lexRel_cons,
      ih hlt fun y' hy' => hp y' (mem_cons_of_mem y hy'), cons_lt_cons_iff]
    intro hnil
    have hlen := congrArg List.length (append_eq_nil_iff.1 hnil).2
    rw [length_replicate, length_nil] at hlen
    omega

theorem lexRel_fill_right (hd : 0 ≤ d) {p : ℤ} {Xs Ys : List ℤ} (hlt : Ys.length < Xs.length) (hp : ∀ x ∈ Xs, p < x) :
    LexRel d Xs (Ys ++ List.replicate (Xs.length - Ys.length) p) ↔ Xs < Ys := by
  induction Ys generalizing Xs with
  | nil =>
    obtain ⟨x, Xs, rfl⟩ := exists_cons_of_length_pos hlt
    have hx := hp x mem_cons_self
    apply iff_of_false _ (not_lt_nil _)
    cases Xs with
    | nil => exact show ¬ x + d ≤ p by omega
    | cons x' Xs =>
      rintro (hxp | ⟨hxp, -⟩)
      · exact absurd hxp hx.asymm
      · exact absurd hxp hx.ne'
  | cons y Ys ih =>
    obtain ⟨x, Xs, rfl⟩ := exists_cons_of_length_pos (Nat.zero_lt_of_lt hlt)
    rw [length_cons, length_cons, Nat.succ_lt_succ_iff] at hlt
    rw [length_cons, length_cons, Nat.add_sub_add_right, cons_append, lexRel_cons,
      ih hlt fun x' hx' => hp x' (mem_cons_of_mem x hx'), cons_lt_cons_iff]
    exact ne_nil_of_length_pos (Nat.zero_lt_of_lt hlt)

end

/-! ## Arguments of any lengths -/

section
variable {D : ι → Dom} {L1 L2 : List (DvarOrInt ι)} {σ : ι → ℤ} {d : ℤ}

section
variable (hσ : Inside D σ)
include hσ

theorem fill_lt (L : List (DvarOrInt ι)) {v : ℤ} (hv : v ∈ L.map (val σ)) : (L.map (fdMin D)).min?.getD 0 - 1 < v := by
  obtain ⟨x, hx, rfl⟩ := mem_map.1 hv
  have hle := (min?_getD_le (mem_map_of_mem (f := fdMin D) hx)).trans (fdMin_le hσ x)
  omega

theorem lexRel_checkArgsLex (h0 : 0 ≤ d) (h1 : d ≤ 1) :
    LexRel d ((checkArgsLex D L1 L2).1.map (val σ)) ((checkArgsLex D L1 L2).2.map (val σ)) ↔
      if L1.length = L2.length then LexRel d (L1.map (val σ)) (L2.map (val σ))
      else L1.map (val σ) < L2.map (val σ) := by
  unfold checkArgsLex
  dsimp only
  split_ifs with heq hlt
  · rfl
  · rw [List.map_append, map_replicate]
    have hlt' : (L1.map (val σ)).length < (L2.map (val σ)).length := by
      rw [length_map, length_map]
      exact hlt
    have hfill := lexRel_fill_left h1 hlt' fun y hy => fill_lt hσ L2 hy
    rw [length_map, length_map] at hfill
    exact hfill
  · rw [List.map_append, map_replicate]
    have hlt' : (L2.map (val σ)).length < (L1.map (val σ)).length := by
      rw [length_map, length_map]
      omega
    have hfill := lexRel_fill_right h0 hlt' fun x hx => fill_lt hσ L1 hx
    rw [length_map, length_map] at hfill
    exact hfill

theorem lexRel_checkArgsLex_zero :
    LexRel 0 ((checkArgsLex D L1 L2).1.map (val σ)) ((checkArgsLex D L1 L2).2.map (val σ)) ↔
      L1.map (val σ) < L2.map (val σ) ∨ L1.map (val σ) = L2.map (val σ) := by
  rw [lexRel_checkArgsLex hσ (le_refl 0) zero_le_one]
  split_ifs with heq
  · exact lexRel_zero_iff (by rw [length_map, length_map, heq])
  · refine (or_iff_left fun hmap => heq ?_).symm
    have hlen := congrArg List.length hmap
    rwa [length_map, length_map] at hlen

theorem lexRel_checkArgsLex_one :
    LexRel 1 ((checkArgsLex D L1 L2).1.map (val σ)) ((checkArgsLex D L1 L2).2.map (val σ)) ↔
      L1.map (val σ) < L2.map (val σ) ∨ L1 = [] ∧ L2 = [] := by
  rw [lexRel_checkArgsLex hσ zero_le_one (le_refl 1)]
  split_ifs with heq
  · rw [lexRel_one_iff (by rw [length_map, length_map, heq]), map_eq_nil_iff, map_eq_nil_iff]
  · refine (or_iff_left fun hnil => heq ?_).symm
    rw [hnil.1, hnil.2]

theorem satLexLe_iff : satLexLe D L1 L2 σ ↔ L1.map (val σ) < L2.map (val σ) ∨ L1.map (val σ) = L2.map (val σ) := by
  unfold satLexLe
  rw [lexAux_iff (by rw [length_map, length_map, length_checkArgsLex]), lexRel_checkArgsLex_zero hσ]

theorem satLexLt_iff : satLexLt D L1 L2 σ ↔ L1.map (val σ) < L2.map (val σ) ∨ L1 = [] ∧ L2 = [] := by
  unfold satLexLt
  rw [lexAux_iff (by rw [length_map, length_map, length_checkArgsLex]), lexRel_checkArgsLex_one hσ]

end

end

end Picat.Global

/-! # `lex_le`, `lex_lt` in the CP module -/

namespace Picat.Global
open DvarOrInt Relation Function List

variable {ι : Type}

/-- `ge Y X` is `bp.v_ge_v(Y,X)` for `lex_le` and `bp.v_gt_v(Y,X)` for `lex_lt`. -/
inductive LexAgent (ι : Type) where
  | exit
  | ge (Y X : DvarOrInt ι)
  | watch (X Y : DvarOrInt ι) (Xs Ys : List (DvarOrInt ι))

abbrev LexState (ι : Type) := (ι → Dom) × LexAgent ι

section
variable [DecidableEq ι] (d : ℤ) (D : ι → Dom)

/-- The values of `X` that satisfy `p`, unless there are none. -/
def domainRegion (X : DvarOrInt ι) (p : ℤ → Bool) : Option (ι → Dom) :=
  match X with
  | int c => if p c then some D else none
  | var i =>
    if h : ((D i).1.filter fun v => p v = true).Nonempty then some (update D i ⟨_, h⟩) else none

def domainRegionMax (X : DvarOrInt ι) (c : ℤ) : Option (ι → Dom) := domainRegion D X fun v => v ≤ c

def domainRegionMin (X : DvarOrInt ι) (c : ℤ) : Option (ι → Dom) := domainRegion D X fun v => c ≤ v

/-- The actions of the first two rules of `watch_lex_le`. -/
def watchLexVar (X Y : DvarOrInt ι) (Xs Ys : List (DvarOrInt ι)) : Option (LexState ι) :=
  if Y.fdMax D < X.fdMin D then none else some (D, .watch X Y Xs Ys)

def lexAuxCp : List (DvarOrInt ι) → List (DvarOrInt ι) → Option (LexState ι)
  | [], _ => some (D, .exit)
  | [X], [Y] =>
    if X.isVar D then
      if Y.isVar D then some (D, .ge Y X)
      else (domainRegionMax D X (Y.fdMin D - d)).map fun D1 => (D1, .exit)
    else if Y.isVar D then (domainRegionMin D Y (X.fdMin D + d)).map fun D1 => (D1, .exit)
    else if X.fdMin D + d ≤ Y.fdMin D then some (D, .exit) else none
  | X :: Xs, Y :: Ys =>
    if X.isVar D = false ∧ Y.isVar D = false then
      if X.fdMin D < Y.fdMin D then some (D, .exit)
      else if X.fdMin D = Y.fdMin D then lexAuxCp Xs Ys
      else none
    else watchLexVar D X Y Xs Ys
  | _ :: _, [] => none

def lexCp (L1 L2 : List (DvarOrInt ι)) : Option (LexState ι) :=
  lexAuxCp d D (checkArgsLex D L1 L2).1 (checkArgsLex D L1 L2).2

def watchLex (X Y : DvarOrInt ι) (Xs Ys : List (DvarOrInt ι)) : Option (LexState ι) :=
  if X.isVar D then watchLexVar D X Y Xs Ys
  else if Y.isVar D then watchLexVar D X Y Xs Ys
  else if X.fdMin D < Y.fdMin D then some (D, .exit)
  else if X.fdMin D = Y.fdMin D then lexCp d D Xs Ys
  else none

end

section
variable [DecidableEq ι]

def cpLexLe (D : ι → Dom) (L1 L2 : List (DvarOrInt ι)) : Option (LexState ι) := lexCp 0 D L1 L2

def cpLexLt (D : ι → Dom) (L1 L2 : List (DvarOrInt ι)) : Option (LexState ι) := lexCp 1 D L1 L2

/-- Domains shrink by labelling and by other constraints, and the agent is woken by their events. -/
inductive Step (d : ℤ) : LexState ι → LexState ι → Prop
  | shrink {D D1 a} : (∀ i, (D1 i).1 ⊆ (D i).1) → Step d (D, a) (D1, a)
  | wake {D X Y Xs Ys s} : watchLex d D X Y Xs Ys = some s → Step d (D, .watch X Y Xs Ys) s

end

def boundTo (σ : ι → ℤ) : ι → Dom := fun i => ⟨{σ i}, Finset.singleton_nonempty _⟩

/-- All variables are bound, the agent is done, and the comparison that is posted holds. -/
def Accepted (d : ℤ) (σ : ι → ℤ) (s : LexState ι) : Prop :=
  s.1 = boundTo σ ∧ match s.2 with
    | .exit => True
    | .ge Y X => X.val σ + d ≤ Y.val σ
    | .watch _ _ _ _ => False

section
variable [DecidableEq ι] (d : ℤ) (σ : ι → ℤ)

def CpAccepts (start : Option (LexState ι)) : Prop :=
  ∃ s0, start = some s0 ∧ ∃ s, ReflTransGen (Step d) s0 s ∧ Accepted d σ s

/-- In every run, as long as the domains hold the assignment, no wake fails or removes it, and the run can go on to an end
with it. -/
def CpKeeps (start : Option (LexState ι)) : Prop :=
  ∃ s0, start = some s0 ∧ Inside s0.1 σ ∧ ∀ s, ReflTransGen (Step d) s0 s → Inside s.1 σ →
    (∀ X Y Xs Ys, s.2 = .watch X Y Xs Ys → ∃ s1, watchLex d s.1 X Y Xs Ys = some s1 ∧ Inside s1.1 σ) ∧
      ∃ s1, ReflTransGen (Step d) s s1 ∧ Accepted d σ s1

end

/-! ## What a call leaves -/

/-- The sequences that an agent watches have one length, 2 at least. -/
def LexAgent.Watches : LexAgent ι → Prop
  | .exit => True
  | .ge _ _ => True
  | .watch _ _ Xs Ys => Xs.length = Ys.length ∧ Xs ≠ []

def LexAgent.Means (d : ℤ) (σ : ι → ℤ) : LexAgent ι → Prop
  | .exit => True
  | .ge Y X => X.val σ + d ≤ Y.val σ
  | .watch X Y Xs Ys => LexRel d ((X :: Xs).map (val σ)) ((Y :: Ys).map (val σ))

/-- The assignment is in the domains and has what the agent stands for. -/
def Holds (d : ℤ) (σ : ι → ℤ) : Option (LexState ι) → Prop
  | none => False
  | some s => Inside s.1 σ ∧ s.2.Means d σ

structure Leaves (D : ι → Dom) (s : LexState ι) : Prop where
  sub : ∀ i, (s.1 i).1 ⊆ (D i).1
  watches : s.2.Watches

section
variable [DecidableEq ι] {d : ℤ} {D : ι → Dom} {σ : ι → ℤ} {X Y : DvarOrInt ι} {Xs Ys : List (DvarOrInt ι)}

theorem domainRegion_holds (hσ : Inside D σ) (p : ℤ → Bool) :
    Holds d σ ((domainRegion D X p).map fun D1 => (D1, .exit)) ↔ p (X.val σ) = true := by
  unfold domainRegion
  cases X with
  | int c =>
    dsimp only
    split_ifs with hp
    · exact iff_of_true ⟨hσ, trivial⟩ hp
    · exact iff_of_false id hp
  | var i =>
    dsimp only
    split_ifs with h
    · constructor
      · intro hin
        have hi := hin.1 i
        dsimp only at hi
        rw [update_self] at hi
        exact (Finset.mem_filter.1 hi).2
      · intro hp
        refine ⟨fun j => ?_, trivial⟩
        dsimp only
        by_cases hj : j = i
        · subst hj
          rw [update_self]
          exact Finset.mem_filter.2 ⟨hσ j, hp⟩
        · rw [update_of_ne hj]
          exact hσ j
    · exact iff_of_false id fun hp => h ⟨σ i, Finset.mem_filter.2 ⟨hσ i, hp⟩⟩

theorem domainRegion_leaves {p : ℤ → Bool} {s : LexState ι}
    (h : (domainRegion D X p).map (fun D1 => (D1, .exit)) = some s) : Leaves D s := by
  obtain ⟨D1, hD1, rfl⟩ := Option.map_eq_some_iff.1 h
  refine ⟨fun j => ?_, trivial⟩
  dsimp only
  unfold domainRegion at hD1
  cases X with
  | int c =>
    dsimp only at hD1
    split_ifs at hD1
    rw [Option.some.inj hD1]
  | var i =>
    dsimp only at hD1
    split_ifs at hD1
    rw [← Option.some.inj hD1]
    by_cases hj : j = i
    · subst hj
      rw [update_self]
      exact Finset.filter_subset _ _
    · rw [update_of_ne hj]

omit [DecidableEq ι] in
theorem leaves_refl {a : LexAgent ι} (h : a.Watches) : Leaves D (D, a) := ⟨fun _ => Finset.Subset.refl _, h⟩

omit [DecidableEq ι] in
theorem watchLexVar_holds (hσ : Inside D σ) (hne : Xs ≠ []) : Holds d σ (watchLexVar D X Y Xs Ys) ↔
    LexRel d ((X :: Xs).map (val σ)) ((Y :: Ys).map (val σ)) := by
  unfold watchLexVar
  split_ifs with hlt
  · apply iff_of_false id
    have h1 := fdMin_le hσ X
    have h2 := le_fdMax hσ Y
    rw [map_cons, map_cons, lexRel_cons fun hnil => hne (map_eq_nil_iff.1 hnil)]
    omega
  · exact and_iff_right hσ

omit [DecidableEq ι] in
theorem watchLexVar_leaves (hlen : Xs.length = Ys.length) (hne : Xs ≠ []) {s : LexState ι}
    (h : watchLexVar D X Y Xs Ys = some s) : Leaves D s := by
  unfold watchLexVar at h
  split_ifs at h
  rw [← Option.some.inj h]
  exact leaves_refl ⟨hlen, hne⟩

theorem lexAuxCp_cons (hne : Xs ≠ []) : lexAuxCp d D (X :: Xs) (Y :: Ys) = if X.isVar D = false ∧ Y.isVar D = false then
      if X.fdMin D < Y.fdMin D then some (D, .exit)
      else if X.fdMin D = Y.fdMin D then lexAuxCp d D Xs Ys
      else none
    else watchLexVar D X Y Xs Ys := by
  obtain ⟨X2, Xs, rfl⟩ := exists_cons_of_ne_nil hne
  cases Ys <;> rfl

theorem lexAuxCp_last (hσ : Inside D σ) : Holds d σ (lexAuxCp d D [X] [Y]) ↔ X.val σ + d ≤ Y.val σ := by
  unfold lexAuxCp
  split_ifs with hX hY hY hle
  · exact and_iff_right hσ
  · rw [fdMin_eq hσ (Bool.eq_false_of_not_eq_true hY)]
    apply (domainRegion_holds hσ _).trans
    rw [decide_eq_true_eq]
    omega
  · rw [fdMin_eq hσ (Bool.eq_false_of_not_eq_true hX)]
    apply (domainRegion_holds hσ _).trans
    rw [decide_eq_true_eq]
  · rw [fdMin_eq hσ (Bool.eq_false_of_not_eq_true hX), fdMin_eq hσ (Bool.eq_false_of_not_eq_true hY)] at hle
    exact iff_of_true ⟨hσ, trivial⟩ hle
  · rw [fdMin_eq hσ (Bool.eq_false_of_not_eq_true hX), fdMin_eq hσ (Bool.eq_false_of_not_eq_true hY)] at hle
    exact iff_of_false id hle

theorem lexAuxCp_holds (hσ : Inside D σ) (hlen : Xs.length = Ys.length) :
    Holds d σ (lexAuxCp d D Xs Ys) ↔ LexRel d (Xs.map (val σ)) (Ys.map (val σ)) := by
  induction Xs generalizing Ys with
  | nil =>
    rw [length_eq_zero_iff.1 hlen.symm]
    exact iff_of_true ⟨hσ, trivial⟩ trivial
  | cons X Xs ih =>
    obtain ⟨Y, Ys, rfl⟩ := exists_cons_of_length_eq_add_one hlen.symm
    have hlen : Xs.length = Ys.length := Nat.succ.inj hlen
    by_cases hne : Xs = []
    · subst hne
      rw [length_eq_zero_iff.1 hlen.symm]
      exact lexAuxCp_last hσ
    · rw [lexAuxCp_cons hne]
      split_ifs with hint hlt heq
      · rw [fdMin_eq hσ hint.1, fdMin_eq hσ hint.2] at hlt
        rw [map_cons, map_cons, lexRel_cons fun hnil => hne (map_eq_nil_iff.1 hnil)]
        exact iff_of_true ⟨hσ, trivial⟩ (.inl hlt)
      · rw [fdMin_eq hσ hint.1, fdMin_eq hσ hint.2] at hlt heq
        rw [map_cons, map_cons, lexRel_cons fun hnil => hne (map_eq_nil_iff.1 hnil), or_iff_right hlt,
          and_iff_right heq]
        exact ih hlen
      · rw [fdMin_eq hσ hint.1, fdMin_eq hσ hint.2] at hlt heq
        rw [map_cons, map_cons, lexRel_cons fun hnil => hne (map_eq_nil_iff.1 hnil), or_iff_right hlt]
        exact iff_of_false id fun h => heq h.1
      · exact watchLexVar_holds hσ hne

theorem lexAuxCp_leaves (hlen : Xs.length = Ys.length) {s : LexState ι} (h : lexAuxCp d D Xs Ys = some s) :
    Leaves D s := by
  induction Xs generalizing Ys with
  | nil =>
    unfold lexAuxCp at h
    rw [← Option.some.inj h]
    exact leaves_refl trivial
  | cons X Xs ih =>
    obtain ⟨Y, Ys, rfl⟩ := exists_cons_of_length_eq_add_one hlen.symm
    have hlen : Xs.length = Ys.length := Nat.succ.inj hlen
    by_cases hne : Xs = []
    · subst hne
      rw [length_eq_zero_iff.1 hlen.symm] at h
      unfold lexAuxCp at h
      split_ifs at h
      · rw [← Option.some.inj h]
        exact leaves_refl trivial
      · exact domainRegion_leaves h
      · exact domainRegion_leaves h
      · rw [← Option.some.inj h]
        exact leaves_refl trivial
    · rw [lexAuxCp_cons hne] at h
      split_ifs at h
      · rw [← Option.some.inj h]
        exact leaves_refl trivial
      · exact ih hlen h
      · exact watchLexVar_leaves hlen hne h

/-! ## The agent -/

omit [DecidableEq ι] in
theorem checkArgsLex_of_length_eq {L1 L2 : List (DvarOrInt ι)} (hlen : L1.length = L2.length) :
    checkArgsLex D L1 L2 = (L1, L2) := if_pos hlen

theorem watchLex_eq (hlen : Xs.length = Ys.length) (hne : Xs ≠ []) :
    watchLex d D X Y Xs Ys = lexAuxCp d D (X :: Xs) (Y :: Ys) := by
  rw [lexAuxCp_cons hne]
  unfold watchLex lexCp
  rw [checkArgsLex_of_length_eq hlen]
  cases X.isVar D with
  | true => rfl
  | false =>
    cases Y.isVar D with
    | true => rfl
    | false => rfl

theorem watchLex_holds (hσ : Inside D σ) (h : (LexAgent.watch X Y Xs Ys).Watches) :
    Holds d σ (watchLex d D X Y Xs Ys) ↔ (LexAgent.watch X Y Xs Ys).Means d σ := by
  rw [watchLex_eq h.1 h.2]
  exact lexAuxCp_holds hσ (congrArg Nat.succ h.1)

section
variable (h : (LexAgent.watch X Y Xs Ys).Watches) {s : LexState ι}
include h

theorem watchLex_leaves (hs : watchLex d D X Y Xs Ys = some s) : Leaves D s := by
  have hlen : (X :: Xs).length = (Y :: Ys).length := congrArg Nat.succ h.1
  rw [watchLex_eq h.1 h.2] at hs
  exact lexAuxCp_leaves hlen hs

theorem watchLex_boundTo (hs : watchLex d (boundTo σ) X Y Xs Ys = some s) : s.2 = .exit := by
  have hbound : ∀ x : DvarOrInt ι, x.isVar (boundTo σ) = false := by
    intro x
    cases x with
    | int c => rfl
    | var i => exact decide_eq_false (not_not.2 (Finset.card_singleton (σ i)))
  have hgen : ∀ l1 l2 : List (DvarOrInt ι), l1.length = l2.length → lexAuxCp d (boundTo σ) l1 l2 = some s → s.2 = .exit := by
    intro l1
    induction l1 with
    | nil =>
      intro l2 _ hs
      unfold lexAuxCp at hs
      rw [← Option.some.inj hs]
    | cons x l1 ih =>
      intro l2 hlen hs
      obtain ⟨y, l2, rfl⟩ := exists_cons_of_length_eq_add_one hlen.symm
      have hlen : l1.length = l2.length := Nat.succ.inj hlen
      by_cases hne : l1 = []
      · subst hne
        rw [length_eq_zero_iff.1 hlen.symm] at hs
        unfold lexAuxCp at hs
        rw [hbound x, hbound y] at hs
        simp only [Bool.false_eq_true, if_false] at hs
        split_ifs at hs
        rw [← Option.some.inj hs]
      · rw [lexAuxCp_cons hne, hbound x, hbound y, if_pos ⟨rfl, rfl⟩] at hs
        split_ifs at hs
        · rw [← Option.some.inj hs]
        · exact ih l2 hlen hs
  rw [watchLex_eq h.1 h.2] at hs
  exact hgen (X :: Xs) (Y :: Ys) (congrArg Nat.succ h.1) hs

end

/-! ## Runs -/

section
variable {s s1 : LexState ι}

section
variable (h : s.2.Watches)
include h

theorem step_leaves (hstep : Step d s s1) : Leaves s.1 s1 := by
  cases hstep with
  | shrink hsub => exact ⟨hsub, h⟩
  | wake hs => exact watchLex_leaves h hs

theorem step_means (hσ : Inside s1.1 σ) (hstep : Step d s s1) : Inside s.1 σ ∧ (s1.2.Means d σ ↔ s.2.Means d σ) := by
  have hs : Inside s.1 σ := fun i => (step_leaves h hstep).sub i (hσ i)
  refine ⟨hs, ?_⟩
  cases hstep with
  | shrink hsub => rfl
  | wake hwake =>
    rw [← watchLex_holds hs h, hwake]
    exact (and_iff_right hσ).symm

theorem run_watches (hrun : ReflTransGen (Step d) s s1) : s1.2.Watches := by
  induction hrun with
  | refl => exact h
  | tail _ hstep ih => exact (step_leaves ih hstep).watches

theorem run_means (hσ : Inside s1.1 σ) (hrun : ReflTransGen (Step d) s s1) :
    Inside s.1 σ ∧ (s1.2.Means d σ ↔ s.2.Means d σ) := by
  induction hrun with
  | refl => exact ⟨hσ, Iff.rfl⟩
  | tail hrun hstep ih =>
    obtain ⟨hσ1, hmeans⟩ := step_means (run_watches h hrun) hσ hstep
    obtain ⟨hσ0, hmeans0⟩ := ih hσ1
    exact ⟨hσ0, hmeans.trans hmeans0⟩

end

omit [DecidableEq ι] in
theorem inside_boundTo (σ : ι → ℤ) : Inside (boundTo σ) σ := fun _ => Finset.mem_singleton_self _

omit [DecidableEq ι] in
theorem Accepted.means (h : Accepted d σ s) : Inside s.1 σ ∧ s.2.Means d σ := by
  obtain ⟨D, a⟩ := s
  obtain ⟨hD, ha⟩ := h
  refine ⟨hD ▸ inside_boundTo σ, ?_⟩
  cases a with
  | exit => trivial
  | ge Y X => exact ha
  | watch X Y Xs Ys => exact False.elim ha

theorem exists_accepted (h : s.2.Watches) (hσ : Inside s.1 σ) (hmeans : s.2.Means d σ) :
    ∃ s1, ReflTransGen (Step d) s s1 ∧ Accepted d σ s1 := by
  obtain ⟨D, a⟩ := s
  have hbind : Step d (D, a) (boundTo σ, a) := Step.shrink fun i => Finset.singleton_subset_iff.2 (hσ i)
  cases a with
  | exit => exact ⟨_, ReflTransGen.single hbind, rfl, trivial⟩
  | ge Y X => exact ⟨_, ReflTransGen.single hbind, rfl, hmeans⟩
  | watch X Y Xs Ys =>
    have hholds := (watchLex_holds (inside_boundTo σ) h).2 hmeans
    cases hwake : watchLex d (boundTo σ) X Y Xs Ys with
    | none =>
      rw [hwake] at hholds
      exact False.elim hholds
    | some s1 =>
      refine ⟨s1, (ReflTransGen.single hbind).tail (Step.wake hwake), ?_⟩
      have hexit := watchLex_boundTo h hwake
      have hsub := (watchLex_leaves h hwake).sub
      obtain ⟨D1, a1⟩ := s1
      dsimp only at hexit hsub
      rw [hwake] at hholds
      constructor
      · funext i
        apply Subtype.ext
        exact (hsub i).antisymm (Finset.singleton_subset_iff.2 (hholds.1 i))
      · rw [hexit]
        trivial

end

/-! ## The assignments that are accepted -/

variable {L1 L2 : List (DvarOrInt ι)}

theorem lexCp_holds (hσ : Inside D σ) : Holds d σ (lexCp d D L1 L2) ↔
    LexRel d ((checkArgsLex D L1 L2).1.map (val σ)) ((checkArgsLex D L1 L2).2.map (val σ)) :=
  lexAuxCp_holds hσ (length_checkArgsLex D L1 L2)

theorem CpKeeps.accepts {start : Option (LexState ι)} (h : CpKeeps d σ start) : CpAccepts d σ start := by
  obtain ⟨s0, hstart, hσ, hruns⟩ := h
  exact ⟨s0, hstart, (hruns s0 ReflTransGen.refl hσ).2⟩

theorem cpKeeps_of_holds (h : Holds d σ (lexCp d D L1 L2)) : CpKeeps d σ (lexCp d D L1 L2) := by
  cases hstart : lexCp d D L1 L2 with
  | none =>
    rw [hstart] at h
    exact False.elim h
  | some s0 =>
    rw [hstart] at h
    obtain ⟨hσ0, hmeans0⟩ := h
    have hwatches0 := (lexAuxCp_leaves (length_checkArgsLex D L1 L2) hstart).watches
    refine ⟨s0, rfl, hσ0, ?_⟩
    intro s hrun hσ
    have hwatches := run_watches hwatches0 hrun
    have hmeans := (run_means hwatches0 hσ hrun).2.2 hmeans0
    refine ⟨?_, exists_accepted hwatches hσ hmeans⟩
    intro X Y Xs Ys hwatch
    rw [hwatch] at hwatches hmeans
    have hwake := (watchLex_holds hσ hwatches).2 hmeans
    cases hs1 : watchLex d s.1 X Y Xs Ys with
    | none =>
      rw [hs1] at hwake
      exact False.elim hwake
    | some s1 =>
      rw [hs1] at hwake
      exact ⟨s1, rfl, hwake.1⟩

theorem CpAccepts.holds (h : CpAccepts d σ (lexCp d D L1 L2)) : Holds d σ (lexCp d D L1 L2) := by
  obtain ⟨s0, hstart, s, hrun, hacc⟩ := h
  rw [hstart]
  have hwatches0 := (lexAuxCp_leaves (length_checkArgsLex D L1 L2) hstart).watches
  obtain ⟨hσ, hmeans⟩ := hacc.means
  obtain ⟨hσ0, hmeans0⟩ := run_means hwatches0 hσ hrun
  exact ⟨hσ0, hmeans0.1 hmeans⟩

theorem lexCp_iff (hσ : Inside D σ) {P : Prop}
    (hP : LexRel d ((checkArgsLex D L1 L2).1.map (val σ)) ((checkArgsLex D L1 L2).2.map (val σ)) ↔ P) :
    (CpAccepts d σ (lexCp d D L1 L2) ↔ P) ∧ (CpKeeps d σ (lexCp d D L1 L2) ↔ P) := by
  rw [← hP, ← lexCp_holds hσ]
  exact ⟨⟨CpAccepts.holds, fun h => (cpKeeps_of_holds h).accepts⟩, ⟨fun h => h.accepts.holds, cpKeeps_of_holds⟩⟩

section
variable (D : ι → Dom) (L1 L2 : List (DvarOrInt ι)) (σ : ι → ℤ)

/-- `lex_le` accepts the assignment just when the sequences are in order, in both modules. -/
structure LexLeExact : Prop where
  sat : satLexLe D L1 L2 σ ↔ L1.map (val σ) < L2.map (val σ) ∨ L1.map (val σ) = L2.map (val σ)
  cp : CpAccepts 0 σ (cpLexLe D L1 L2) ↔ L1.map (val σ) < L2.map (val σ) ∨ L1.map (val σ) = L2.map (val σ)
  cpKeeps : CpKeeps 0 σ (cpLexLe D L1 L2) ↔ L1.map (val σ) < L2.map (val σ) ∨ L1.map (val σ) = L2.map (val σ)

structure LexLtExact : Prop where
  sat : satLexLt D L1 L2 σ ↔ L1.map (val σ) < L2.map (val σ)
  cp : CpAccepts 1 σ (cpLexLt D L1 L2) ↔ L1.map (val σ) < L2.map (val σ)
  cpKeeps : CpKeeps 1 σ (cpLexLt D L1 L2) ↔ L1.map (val σ) < L2.map (val σ)

end

theorem lexLeExact (hσ : Inside D σ) : LexLeExact D L1 L2 σ :=
  ⟨satLexLe_iff hσ, (lexCp_iff hσ (lexRel_checkArgsLex_zero hσ)).1, (lexCp_iff hσ (lexRel_checkArgsLex_zero hσ)).2⟩

theorem lexLtExact_iff (hσ : Inside D σ) : LexLtExact D L1 L2 σ ↔ ¬ (L1 = [] ∧ L2 = []) := by
  constructor
  · rintro h ⟨rfl, rfl⟩
    exact not_lt_nil _ (h.sat.1 trivial)
  · intro hne
    have hrel : LexRel 1 ((checkArgsLex D L1 L2).1.map (val σ)) ((checkArgsLex D L1 L2).2.map (val σ)) ↔
        L1.map (val σ) < L2.map (val σ) ∨ L1 = [] ∧ L2 = [] := lexRel_checkArgsLex_one hσ
    obtain ⟨hcp, hkeeps⟩ := lexCp_iff hσ hrel
    have hsat : satLexLt D L1 L2 σ ↔ L1.map (val σ) < L2.map (val σ) ∨ L1 = [] ∧ L2 = [] := satLexLt_iff hσ
    rw [or_iff_left hne] at hcp hkeeps hsat
    exact ⟨hsat, hcp, hkeeps⟩

/-- Two empty sequences are not in strict order, and `lex_lt` accepts them. -/
theorem lex_meets_iff (D : ι → Dom) (L1 L2 : List (DvarOrInt ι)) :
    ((∀ σ, Inside D σ → LexLeExact D L1 L2 σ ∧ LexLtExact D L1 L2 σ) ↔ ¬ (L1 = [] ∧ L2 = [])) ∧
      ∀ σ, Inside D σ → LexLeExact D L1 L2 σ := by
  refine ⟨?_, fun σ hσ => lexLeExact hσ⟩
  constructor
  · intro h
    obtain ⟨σ, hσ⟩ := exists_inside D
    exact (lexLtExact_iff hσ).1 (h σ hσ).2
  · intro hne σ hσ
    exact ⟨lexLeExact hσ, (lexLtExact_iff hσ).2 hne⟩

end

theorem lexLt_nil : ¬ ∀ σ : Empty → ℤ, Inside Empty.elim σ →
    LexLeExact Empty.elim [] [] σ ∧ LexLtExact Empty.elim [] [] σ := by
  intro h
  have hlt := (h Empty.elim fun i => i.elim).2
  exact not_lt_nil _ (hlt.sat.1 trivial)

end Picat.Global
