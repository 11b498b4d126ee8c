import Mathlib.Data.List.GetD
import Mathlib.Data.List.Nodup
import Mathlib.Data.Set.Function

/-!
# First-order terms up to renaming

Terms over function symbols `F` and variables `V`, in sequences.

* `variant_iff_canon` : two sequences are variants when they agree after numbering by first occurrence.
-/

namespace Variants

open List

variable {F V W X : Type*}

/-- A function symbol may take any number of arguments. -/
inductive Tm (F V : Type*)
  | var (x : V)
  | app (f : F) (args : List (Tm F V))

namespace Tm

mutual

def rename (σ : V → W) : Tm F V → Tm F W
  | var x => var (σ x)
  | app f args => app f (mapVars σ args)

def mapVars (σ : V → W) : List (Tm F V) → List (Tm F W)
  | [] => []
  | t :: ts => rename σ t :: mapVars σ ts

end

mutual

def occs : Tm F V → List V
  | var x => [x]
  | app _ args => vars args

def vars : List (Tm F V) → List V
  | [] => []
  | t :: ts => occs t ++ vars ts

end

theorem induct {P : Tm F V → Prop} (var : ∀ x, P (var x)) (app : ∀ f args, (∀ t ∈ args, P t) → P (app f args))
    (t : Tm F V) : P t :=
  @Tm.rec F V P (fun ts => ∀ t ∈ ts, P t) var app (fun _ h => absurd h not_mem_nil)
    (fun _ _ ht hts => forall_mem_cons.2 ⟨ht, hts⟩) t

theorem mapVars_eq_map (σ : V → W) (ts : List (Tm F V)) : mapVars σ ts = ts.map (rename σ) := by
  induction ts with
  | nil => rfl
  | cons t ts ih => rw [mapVars, ih, map_cons]

theorem vars_eq_flatMap (ts : List (Tm F V)) : vars ts = ts.flatMap occs := by
  induction ts with
  | nil => rfl
  | cons t ts ih => rw [vars, ih, flatMap_cons]

theorem occs_rename (σ : V → W) (t : Tm F V) : occs (rename σ t) = (occs t).map σ := by
  induction t using induct with
  | var x => rfl
  | app f args ih =>
    rw [rename, occs, occs, mapVars_eq_map, vars_eq_flatMap, vars_eq_flatMap, flatMap_map, map_flatMap]
    exact flatMap_congr ih

theorem vars_mapVars (σ : V → W) (ts : List (Tm F V)) : vars (mapVars σ ts) = (vars ts).map σ := by
  rw [vars_eq_flatMap, mapVars_eq_map, flatMap_map, vars_eq_flatMap, map_flatMap]
  exact flatMap_congr fun t _ => occs_rename σ t

theorem rename_rename (σ : V → W) (τ : W → X) (t : Tm F V) : rename τ (rename σ t) = rename (τ ∘ σ) t := by
  induction t using induct with
  | var x => rfl
  | app f args ih =>
    simp only [rename, mapVars_eq_map, map_map]
    exact congrArg (app f) (map_congr_left ih)

theorem mapVars_mapVars (σ : V → W) (τ : W → X) (ts : List (Tm F V)) :
    mapVars τ (mapVars σ ts) = mapVars (τ ∘ σ) ts := by
  simp only [mapVars_eq_map, map_map]
  exact map_congr_left fun t _ => rename_rename σ τ t

theorem rename_congr {σ τ : V → W} (t : Tm F V) (h : ∀ x ∈ occs t, σ x = τ x) : rename σ t = rename τ t := by
  induction t using induct with
  | var x => rw [rename, rename, h x (mem_singleton_self x)]
  | app f args ih =>
    rw [occs, vars_eq_flatMap] at h
    rw [rename, rename, mapVars_eq_map, mapVars_eq_map]
    refine congrArg (app f) (map_congr_left fun t ht => ih t ht fun x hx => h x ?_)
    exact mem_flatMap.2 ⟨t, ht, hx⟩

theorem rename_eq_iff {σ τ : V → W} {t : Tm F V} : rename σ t = rename τ t ↔ ∀ x ∈ occs t, σ x = τ x := by
  refine ⟨fun h => ?_, rename_congr t⟩
  have hoccs : (occs t).map σ = (occs t).map τ := by rw [← occs_rename, ← occs_rename, h]
  exact map_inj_left.1 hoccs

theorem mapVars_congr {σ τ : V → W} (ts : List (Tm F V)) (h : ∀ x ∈ vars ts, σ x = τ x) :
    mapVars σ ts = mapVars τ ts := by
  rw [mapVars_eq_map, mapVars_eq_map]
  rw [vars_eq_flatMap] at h
  exact map_congr_left fun t ht => rename_congr t fun x hx => h x (mem_flatMap.2 ⟨t, ht, hx⟩)

theorem rename_id (t : Tm F V) : rename id t = t := by
  induction t using induct with
  | var x => rfl
  | app f args ih => rw [rename, mapVars_eq_map, map_congr_left ih, map_id']

theorem mapVars_id (ts : List (Tm F V)) : mapVars id ts = ts := by
  rw [mapVars_eq_map, map_congr_left fun t _ => rename_id t, map_id']

end Tm

/-! ## Unifiable terms -/

namespace Tm

mutual

def subst (σ : V → Tm F W) : Tm F V → Tm F W
  | var x => σ x
  | app f args => app f (substArgs σ args)

def substArgs (σ : V → Tm F W) : List (Tm F V) → List (Tm F W)
  | [] => []
  | t :: ts => subst σ t :: substArgs σ ts

end

theorem subst_congr {σ τ : V → Tm F W} (t : Tm F V) (h : ∀ x ∈ occs t, σ x = τ x) : subst σ t = subst τ t := by
  induction t using induct with
  | var x => exact h x (mem_singleton_self x)
  | app f args ih =>
    rw [subst, subst]
    congr 1
    rw [occs] at h
    induction args with
    | nil => rfl
    | cons t ts ihts =>
      rw [forall_mem_cons] at ih
      rw [vars, forall_mem_append] at h
      rw [substArgs, substArgs, ih.1 h.1, ihts ih.2 h.2]

theorem subst_var (σ : V → W) (t : Tm F V) : subst (fun x => .var (σ x)) t = rename σ t := by
  induction t using induct with
  | var x => rfl
  | app f args ih =>
    rw [subst, rename]
    congr 1
    induction args with
    | nil => rfl
    | cons t ts ihts =>
      rw [forall_mem_cons] at ih
      rw [substArgs, mapVars, ih.1, ihts ih.2]

end Tm

def Unifiable (t : Tm F V) (u : Tm F W) : Prop := ∃ (σ : V → Tm F W) (τ : W → Tm F W), t.subst σ = u.subst τ

theorem Unifiable.first_arg {f g : F} {a : Tm F V} {b : Tm F W} {as : List (Tm F V)} {bs : List (Tm F W)}
    (h : Unifiable (.app f (a :: as)) (.app g (b :: bs))) : f = g ∧ Unifiable a b := by
  obtain ⟨σ, τ, heq⟩ := h
  rw [Tm.subst, Tm.subst, Tm.app.injEq, Tm.substArgs, Tm.substArgs, List.cons.injEq] at heq
  exact ⟨heq.1, σ, τ, heq.2.1⟩

theorem Unifiable.symbol {f g : F} {as : List (Tm F V)} {bs : List (Tm F W)}
    (h : Unifiable (.app f as) (.app g bs)) : f = g := by
  obtain ⟨σ, τ, heq⟩ := h
  rw [Tm.subst, Tm.subst, Tm.app.injEq] at heq
  exact heq.1

/-! ## The order of first occurrence -/

section Firsts
variable [DecidableEq V] [DecidableEq W]

/-- The variables `seen`, then the others of `xs` in the order in which they occur first. -/
def firsts (seen : List V) : List V → List V
  | [] => seen
  | x :: xs => if x ∈ seen then firsts seen xs else firsts (seen ++ [x]) xs

variable {seen xs ys : List V} {x y : V}

theorem firsts_append : firsts seen (xs ++ ys) = firsts (firsts seen xs) ys := by
  induction xs generalizing seen with
  | nil => rfl
  | cons x xs ih =>
    simp only [cons_append, firsts]
    split_ifs <;> exact ih

theorem mem_firsts : y ∈ firsts seen xs ↔ y ∈ seen ∨ y ∈ xs := by
  induction xs generalizing seen with
  | nil => simp [firsts]
  | cons x xs ih =>
    rw [firsts]
    split_ifs with hx
    · rw [ih, mem_cons]
      refine ⟨fun h => h.imp_right .inr, fun h => ?_⟩
      rcases h with h | rfl | h
      · exact .inl h
      · exact .inl hx
      · exact .inr h
    · rw [ih, mem_append, mem_singleton, mem_cons, or_assoc]

theorem nodup_firsts (h : seen.Nodup) : (firsts seen xs).Nodup := by
  induction xs generalizing seen with
  | nil => exact h
  | cons x xs ih =>
    rw [firsts]
    split_ifs with hx
    · exact ih h
    · exact ih (h.append (nodup_singleton x) (disjoint_singleton.2 hx))

theorem prefix_firsts : seen <+: firsts seen xs := by
  induction xs generalizing seen with
  | nil => exact prefix_refl seen
  | cons x xs ih =>
    rw [firsts]
    split_ifs
    · exact ih
    · exact (prefix_append seen [x]).trans ih

theorem firsts_eq_self (h : ∀ y ∈ xs, y ∈ seen) : firsts seen xs = seen := by
  induction xs with
  | nil => rfl
  | cons x xs ih =>
    rw [firsts, if_pos (h x (mem_cons_self ..))]
    exact ih fun y hy => h y (mem_cons_of_mem x hy)

theorem firsts_map {σ : V → W} (h : Set.InjOn σ {x | x ∈ seen ∨ x ∈ xs}) :
    firsts (seen.map σ) (xs.map σ) = (firsts seen xs).map σ := by
  induction xs generalizing seen with
  | nil => rfl
  | cons x xs ih =>
    have hx : σ x ∈ seen.map σ ↔ x ∈ seen := by
      rw [mem_map]
      refine ⟨fun ⟨y, hy, hxy⟩ => ?_, fun hx => ⟨x, hx, rfl⟩⟩
      exact h (.inl hy) (.inr (mem_cons_self ..)) hxy ▸ hy
    rw [map_cons, firsts, firsts]
    simp only [hx]
    split_ifs with hmem
    · exact ih (h.mono fun y hy => hy.imp_right (mem_cons_of_mem x))
    · rw [← map_singleton, ← List.map_append]
      refine ih (h.mono fun y hy => ?_)
      simp only [Set.mem_ofPred_eq, mem_append, mem_cons, not_mem_nil, or_false] at hy ⊢
      tauto

theorem getI_idxOf [Inhabited V] (hx : x ∈ xs) : xs.getI (xs.idxOf x) = x := by
  rw [getI_eq_getElem _ (idxOf_lt_length_iff.2 hx), getElem_idxOf]

theorem idxOf_prefix_eq {s t : List V} (h : s <+: t) (hx : x ∈ s) : t.idxOf x = s.idxOf x := by
  obtain ⟨r, rfl⟩ := h
  exact idxOf_append_of_mem hx

theorem idxOf_map {σ : V → W} (h : Set.InjOn σ {y | y ∈ xs ∨ y = x}) : (xs.map σ).idxOf (σ x) = xs.idxOf x := by
  induction xs with
  | nil => rfl
  | cons y xs ih =>
    rw [map_cons, idxOf_cons, idxOf_cons]
    have hy : (σ y == σ x) = (y == x) := by
      rw [Bool.eq_iff_iff, beq_iff_eq, beq_iff_eq]
      exact ⟨fun he => h (.inl (mem_cons_self ..)) (.inr rfl) he, fun he => he ▸ rfl⟩
    rw [hy, ih (h.mono fun z hz => hz.imp_left (mem_cons_of_mem y))]

end Firsts

/-! ## Variants -/

/-- Equal up to a renaming that keeps different variables different. -/
def Variant (ts us : List (Tm F V)) : Prop :=
  ∃ σ : V → V, Set.InjOn σ {x | x ∈ Tm.vars ts} ∧ Tm.mapVars σ ts = us

theorem Variant.refl (ts : List (Tm F V)) : Variant ts ts := ⟨id, Set.injOn_id _, Tm.mapVars_id ts⟩

variable [DecidableEq V] {ts us : List (Tm F V)}

/-- The terms with every variable replaced by its place in the order of first occurrence. -/
def canon (ts : List (Tm F V)) : List (Tm F ℕ) := Tm.mapVars (firsts [] (Tm.vars ts)).idxOf ts

theorem idxOf_mem_vars_canon {x : V} (hx : x ∈ Tm.vars ts) : (firsts [] (Tm.vars ts)).idxOf x ∈ Tm.vars (canon ts) := by
  rw [canon, Tm.vars_mapVars]
  exact mem_map_of_mem hx

theorem lt_of_mem_vars_canon {i : ℕ} (hi : i ∈ Tm.vars (canon ts)) : i < (firsts [] (Tm.vars ts)).length := by
  rw [canon, Tm.vars_mapVars, mem_map] at hi
  obtain ⟨x, hx, rfl⟩ := hi
  exact idxOf_lt_length_iff.2 (mem_firsts.2 (.inr hx))

theorem Variant.canon_eq (h : Variant ts us) : canon ts = canon us := by
  obtain ⟨σ, hσ, rfl⟩ := h
  have hfirsts : firsts [] (Tm.vars (Tm.mapVars σ ts)) = (firsts [] (Tm.vars ts)).map σ := by
    rw [Tm.vars_mapVars]
    exact firsts_map (hσ.mono fun x hx => hx.resolve_left not_mem_nil)
  rw [canon, canon, hfirsts, Tm.mapVars_mapVars]
  apply Tm.mapVars_congr ts
  intro x hx
  refine (idxOf_map (hσ.mono fun y hy => ?_)).symm
  rcases hy with hy | rfl
  · exact (mem_firsts.1 hy).resolve_left not_mem_nil
  · exact hx

theorem Variant.of_canon_eq [Inhabited V] (h : canon ts = canon us) : Variant ts us := by
  let s := firsts [] (Tm.vars ts)
  let s' := firsts [] (Tm.vars us)
  refine ⟨s'.getI ∘ s.idxOf, fun x hx y hy hxy => ?_, ?_⟩
  · have hlt : ∀ z ∈ Tm.vars ts, s.idxOf z < s'.length := fun z hz =>
      lt_of_mem_vars_canon (h ▸ idxOf_mem_vars_canon hz)
    simp only [Function.comp_apply, getI_eq_getElem _ (hlt x hx), getI_eq_getElem _ (hlt y hy)] at hxy
    have hidx : s.idxOf x = s.idxOf y := (nodup_firsts nodup_nil).getElem_inj_iff.1 hxy
    exact (idxOf_inj (mem_firsts.2 (.inr hx))).1 hidx
  · -- to read the places back in the order of `us` is to keep `us`
    have hback : Tm.mapVars s'.getI (canon us) = us := by
      rw [canon, Tm.mapVars_mapVars]
      refine (Tm.mapVars_congr us fun y hy => ?_).trans (Tm.mapVars_id us)
      rw [Function.comp_apply, getI_idxOf (mem_firsts.2 (.inr hy)), id]
    rw [← Tm.mapVars_mapVars, ← hback, ← h]
    rfl

theorem variant_iff_canon [Inhabited V] : Variant ts us ↔ canon ts = canon us :=
  ⟨Variant.canon_eq, Variant.of_canon_eq⟩

end Variants
