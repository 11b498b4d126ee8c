import Mathlib.Tactic.FinCases
import Picat.Graph.Edges
import Picat.Graph.Tree
import Picat.Lib.SimplePath

/-!
# `path_d`: a directed path from a source to one of several destinations

* `pathD_meets_iff` : which assignments are judged as they should be.
-/

namespace Picat.Graph
open Paths List

variable {V ι : Type} [DecidableEq V]

def Boolean.mayBeOne : Boolean ι → Bool
  | .zero => false
  | _ => true

section
variable (Vs : List (V × Boolean ι)) (Es : List (V × V × Boolean ι)) (src : V) (dest : List V) (σ : ι → Bool)
variable (dist : V → ℕ)

/-- `once member({Src, 1}, Vs)`. -/
def srcIn : Prop := ∃ b, Vs.find? (fun p => p.1 = src ∧ p.2.mayBeOne) = some (src, b) ∧ b.val σ = true

/-- `sum([B : V in Dest, B = VMap.get(V,0)])`. -/
def sumDest : ℕ := dest.countP fun v => ((putVertices Vs v).getD .zero).val σ

structure OnlySrc : Prop where
  vertices : ∀ v b, (v, b) ∈ Vs → v ≠ src → b.val σ = false
  edges : ∀ v1 v2 b, (v1, v2, b) ∈ Es → b.val σ = false

/-- `sum(BInNeibs)`. -/
def sumIn (r : EdgeTables V ι) (v : V) : ℕ :=
  Vs.countP fun p => match r.eMap p.1 v with | some b => b.val σ | none => false

/-- `sum(BOutNeibs)`. -/
def sumOut (r : EdgeTables V ι) (v : V) : ℕ :=
  Vs.countP fun p => match r.eMap v p.1 with | some b => b.val σ | none => false

structure PathDPosted (r : EdgeTables V ι) : Prop where
  out : sumNeibs r σ src = 1
  distSrc : dist src = 0
  intoDest : ∀ v ∈ dest, ∃ bv, (putVertices Vs v).map (Boolean.val σ) = some bv ∧ (bv = true → sumIn Vs σ r v = 1)
  inner : ∀ v bv, (v, bv) ∈ Vs → v ≠ src → v ∉ dest →
    (bv.val σ = true → sumIn Vs σ r v = 1) ∧ (bv.val σ = true → sumOut Vs σ r v = 1) ∧
      ∀ u bu, (u, bu) ∈ Vs → ∀ bvu, r.eMap v u = some bvu → bvu.val σ = true → dist u = dist v + 1

structure pathD : Prop where
  member : srcIn Vs src σ
  dom : ∀ v b, (v, b) ∈ Vs → dist v ≤ Vs.length
  equal : ∀ p ∈ (registerDEdges Es).equal, p.1.val σ = p.2.val σ
  ends : EndsPosted Vs σ (registerDEdges Es)
  one : sumDest Vs dest σ = 1
  rest : if src ∈ dest then OnlySrc Vs Es src σ else PathDPosted Vs src dest σ dist (registerDEdges Es)

/-- One destination is in, and the vertices and edges that are in are those of a simple path from the source to it. -/
def IsPathD : Prop :=
  (∃! d, d ∈ dest ∧ InVertex Vs σ d) ∧ ∃ d ∈ dest, ∃ p, IsPath (InVertex Vs σ) (InEdge Es σ) src d p

/-- Up to an edge from the destination back to the source: a path with that edge, or a loop at the source beside a cycle
through the destination. -/
def Astray : Prop :=
  src ∉ dest ∧ ∃ d ∈ dest, (InEdge Es σ d src ∧ ∃ p, IsPath (InVertex Vs σ) (Without (InEdge Es σ) d src) src d p) ∨
      ∃ q, LoopAndCycle (InVertex Vs σ) (Without (InEdge Es σ) d src) src d q

/-- The entries of one ordered pair have one value, and the destinations that are in are listed once. -/
def ListedOnce : Prop := EntriesAgree Es σ ∧ sumDest Vs dest σ = 1

end

/-! ## Sums and ends -/

section
variable {Vs : List (V × Boolean ι)} {Es : List (V × V × Boolean ι)} {src : V} {dest : List V} {σ : ι → Bool}
variable {dist : V → ℕ} (hnodup : (Vs.map Prod.fst).Nodup)
include hnodup

theorem srcIn_iff : srcIn Vs src σ ↔ InVertex Vs σ src := by
  constructor
  · intro h
    obtain ⟨b, hfind, hb⟩ := h
    exact ⟨b, mem_of_find?_eq_some hfind, hb⟩
  · intro h
    obtain ⟨b, hmem, hb⟩ := h
    have hsome : (Vs.find? fun p => decide (p.1 = src ∧ p.2.mayBeOne = true)).isSome = true := by
      rw [List.find?_isSome]
      refine ⟨(src, b), hmem, ?_⟩
      cases b with
      | zero => exact absurd hb Bool.false_ne_true
      | one => simp [Boolean.mayBeOne]
      | var x => simp [Boolean.mayBeOne]
    obtain ⟨⟨v, b'⟩, hfind⟩ := Option.isSome_iff_exists.1 hsome
    have hp := List.find?_some hfind
    rw [decide_eq_true_eq] at hp
    obtain ⟨rfl, -⟩ := hp
    have hsame := putVertices_eq Vs hnodup (mem_of_find?_eq_some hfind)
    rw [putVertices_eq Vs hnodup hmem, Option.some.injEq] at hsame
    exact ⟨b', hfind, hsame ▸ hb⟩

omit hnodup in
theorem sumDest_eq : sumDest Vs dest σ = dest.countP fun v => (putVertices Vs v).map (Boolean.val σ) = some true := by
  unfold sumDest
  apply countP_congr
  intro v _
  rw [decide_eq_true_eq]
  cases hv : putVertices Vs v with
  | none => simp [Boolean.val]
  | some b => simp

omit [DecidableEq V] in
theorem sum_eq_one {f : V → Option (Boolean ι)} {P : V → Prop}
    (hf : ∀ u b, f u = some b → (b.val σ = true ↔ P u)) (hP : ∀ u, P u → u ∈ Vs.map Prod.fst ∧ ∃ b, f u = some b) :
    (Vs.countP fun p => match f p.1 with | some b => b.val σ | none => false) = 1 ↔ ∃! u, P u := by
  have hval : ∀ u, (match f u with | some b => b.val σ | none => false) = true ↔ P u := by
    intro u
    cases hu : f u with
    | some b => exact hf u b hu
    | none =>
      apply iff_of_false Bool.false_ne_true
      intro hPu
      obtain ⟨b, hb⟩ := (hP u hPu).2
      rw [hu] at hb
      exact Option.some_ne_none b hb.symm
  have hmap := @countP_map _ _ (fun u => match f u with | some b => b.val σ | none => false) Prod.fst Vs
  have hcomp : (fun p : V × Boolean ι => match f p.1 with | some b => b.val σ | none => false) =
      (fun u => match f u with | some b => b.val σ | none => false) ∘ Prod.fst := rfl
  rw [hcomp, ← hmap, BoolSums.countP_eq_one_iff hnodup]
  simp only [hval]
  apply existsUnique_congr
  intro u
  exact and_iff_right_of_imp fun hu => (hP u hu).1

variable (hends : Joins Vs Es) (hagree : EntriesAgree Es σ)
include hends hagree

theorem sumIn_eq_one (v : V) : sumIn Vs σ (registerDEdges Es) v = 1 ↔ ∃! u, InEdge Es σ u v := by
  have hr := registered_d Es
  refine @sum_eq_one _ _ Vs σ hnodup (fun u => (registerDEdges Es).eMap u v) _ (fun u b hb => hr.val_iff hagree hb) ?_
  intro u hu
  obtain ⟨b, hb, -⟩ := hr.exists_of_inEdge hagree hu
  exact ⟨(hends u v b (hr.listed u v b hb)).1, b, hb⟩

theorem sumOut_eq_one (v : V) : sumOut Vs σ (registerDEdges Es) v = 1 ↔ ∃! u, InEdge Es σ v u := by
  have hr := registered_d Es
  refine @sum_eq_one _ _ Vs σ hnodup (fun u => (registerDEdges Es).eMap v u) _ (fun u b hb => hr.val_iff hagree hb) ?_
  intro u hu
  obtain ⟨b, hb, -⟩ := hr.exists_of_inEdge hagree hu
  exact ⟨(hends v u b (hr.listed v u b hb)).2, b, hb⟩

end

section
variable {Vs : List (V × Boolean ι)} {Es : List (V × V × Boolean ι)} {src : V} {dest : List V} {σ : ι → Bool}
variable {dist : V → ℕ}

theorem exists_dest (hnodup : (Vs.map Prod.fst).Nodup) (h : sumDest Vs dest σ = 1) :
    ∃! d, d ∈ dest ∧ InVertex Vs σ d := by
  rw [sumDest_eq, countP_eq_length_filter, length_eq_one_iff] at h
  obtain ⟨d, hd⟩ := h
  have hmem : ∀ v, v ∈ dest ∧ InVertex Vs σ v ↔ v = d := by
    intro v
    rw [← mem_singleton, ← hd, mem_filter, decide_eq_true_eq, vMap_eq_true_iff hnodup]
  exact ⟨d, (hmem d).2 rfl, fun v hv => (hmem v).1 hv⟩

theorem onlySrc_iff (hsrc : src ∈ dest) : InVertex Vs σ src ∧ OnlySrc Vs Es src σ ↔ IsPathD Vs Es src dest σ := by
  constructor
  · intro hboth
    obtain ⟨hin, hv, he⟩ := hboth
    have honly : ∀ v, InVertex Vs σ v ↔ v = src := by
      intro v
      constructor
      · intro hboth
        obtain ⟨b, hmem, hb⟩ := hboth
        by_contra hne
        rw [hv v b hmem hne] at hb
        exact Bool.false_ne_true hb
      · rintro rfl
        exact hin
    refine ⟨⟨src, ⟨hsrc, hin⟩, fun v h => (honly v).1 h.2⟩, src, hsrc, [src], nodup_singleton src, rfl, rfl, ?_, ?_⟩
    · intro v
      rw [honly v, mem_singleton]
    · intro u v
      refine iff_of_false ?_ ?_
      · intro hboth
        obtain ⟨b, hmem, hb⟩ := hboth
        rw [he u v b hmem] at hb
        exact Bool.false_ne_true hb
      · intro hnext
        exact absurd hnext.mem_tail not_mem_nil
  · intro hboth
    obtain ⟨⟨d, -, huniq⟩, e, he, p, hp⟩ := hboth
    have hsp : src ∈ p := mem_of_head? hp.first
    have hep : e ∈ p := mem_of_getLast? hp.last
    have hes : e = src := (huniq e ⟨he, (hp.mem e).2 hep⟩).trans (huniq src ⟨hsrc, (hp.mem src).2 hsp⟩).symm
    have hone : p = [src] := eq_singleton hp.nodup hp.first (hes ▸ hp.last)
    subst hone
    refine ⟨(hp.mem src).2 hsp, ?_, ?_⟩
    · intro v b hmem hne
      by_contra hb
      have hv := (hp.mem v).1 ⟨b, hmem, Bool.not_eq_false _ ▸ hb⟩
      exact hne (mem_singleton.1 hv)
    · intro v1 v2 b hmem
      by_contra hb
      have hnext := (hp.edge v1 v2).1 ⟨b, hmem, Bool.not_eq_false _ ▸ hb⟩
      exact absurd hnext.mem_tail not_mem_nil

/-! ## The constraint -/

section
variable (hnodup : (Vs.map Prod.fst).Nodup) (hends : Joins Vs Es) (hagree : EntriesAgree Es σ)
include hnodup hends hagree

theorem stepped_of_posted
    (hin : InVertex Vs σ src) (hjoin : ∀ u v, InEdge Es σ u v → InVertex Vs σ u ∧ InVertex Vs σ v) {d : V}
    (hd : d ∈ dest ∧ InVertex Vs σ d) (huniq : ∀ v, v ∈ dest ∧ InVertex Vs σ v → v = d)
    (h : PathDPosted Vs src dest σ dist (registerDEdges Es)) :
    Stepped (InVertex Vs σ) (InEdge Es σ) src d dist := by
  have hr := registered_d Es
  have hinner : ∀ v, InVertex Vs σ v → v ≠ src → v ≠ d → ∃ bv, (v, bv) ∈ Vs ∧ bv.val σ = true ∧ v ∉ dest := by
    rintro v hv - hvd
    obtain ⟨bv, hmem, hb⟩ := id hv
    exact ⟨bv, hmem, hb, fun hdest => hvd (huniq v ⟨hdest, hv⟩)⟩
  refine ⟨hjoin, hin, (hr.sumNeibs_eq_one hagree src).1 h.out, h.distSrc, hd.2, ?_, ?_, ?_, ?_⟩
  · obtain ⟨bv, hbv, hsum⟩ := h.intoDest d hd.1
    rw [(vMap_eq_true_iff hnodup).2 hd.2, Option.some.injEq] at hbv
    exact (sumIn_eq_one hnodup hends hagree d).1 (hsum hbv.symm)
  · intro v hv hs ht
    obtain ⟨bv, hmem, hb, hdest⟩ := hinner v hv hs ht
    exact (sumIn_eq_one hnodup hends hagree v).1 ((h.inner v bv hmem hs hdest).1 hb)
  · intro v hv hs ht
    obtain ⟨bv, hmem, hb, hdest⟩ := hinner v hv hs ht
    exact (sumOut_eq_one hnodup hends hagree v).1 ((h.inner v bv hmem hs hdest).2.1 hb)
  · intro v hv hs ht u hu
    obtain ⟨bv, hmem, hb, hdest⟩ := hinner v hv hs ht
    obtain ⟨bu, hu', -⟩ := (hjoin v u hu).2
    obtain ⟨bvu, hbvu, hval⟩ := hr.exists_of_inEdge hagree hu
    exact (h.inner v bv hmem hs hdest).2.2 u bu hu' bvu hbvu hval

theorem posted_of_stepped (hdest : ∀ v ∈ dest, v ∈ Vs.map Prod.fst) {d : V} (hd : d ∈ dest)
    (huniq : ∀ v, v ∈ dest ∧ InVertex Vs σ v → v = d) (h : Stepped (InVertex Vs σ) (InEdge Es σ) src d dist) :
    PathDPosted Vs src dest σ dist (registerDEdges Es) := by
  have hr := registered_d Es
  refine ⟨(hr.sumNeibs_eq_one hagree src).2 h.out, h.rankStart, ?_, ?_⟩
  · intro v hv
    obtain ⟨b, hmem, hb⟩ := @vMap_eq _ _ _ Vs σ hnodup v (hdest v hv)
    refine ⟨_, hb, ?_⟩
    intro hval
    rw [huniq v ⟨hv, b, hmem, hval⟩]
    exact (sumIn_eq_one hnodup hends hagree d).2 h.into
  · intro v bv hmem hs hnot
    have hne : v ≠ d := fun heq => hnot (heq ▸ hd)
    refine ⟨?_, ?_, ?_⟩
    · intro hb
      exact (sumIn_eq_one hnodup hends hagree v).2 (h.innerIn v ⟨bv, hmem, hb⟩ hs hne)
    · intro hb
      exact (sumOut_eq_one hnodup hends hagree v).2 (h.innerOut v ⟨bv, hmem, hb⟩ hs hne)
    · intro u _ _ bvu hbvu hval
      have huv := (hr.val_iff hagree hbvu).1 hval
      exact h.step v (h.ends v u huv).1 hs hne u huv

end

omit [DecidableEq V] in
theorem path_or_astray {d : V} (hd : d ∈ dest) (hsrc : src ∉ dest) (hone : ∃! v, v ∈ dest ∧ InVertex Vs σ v)
    (h : (∃ p, IsPath (InVertex Vs σ) (Without (InEdge Es σ) d src) src d p) ∨
      ∃ q, LoopAndCycle (InVertex Vs σ) (Without (InEdge Es σ) d src) src d q) :
    IsPathD Vs Es src dest σ ∨ Astray Vs Es src dest σ := by
  by_cases hback : InEdge Es σ d src
  · exact .inr ⟨hsrc, d, hd, h.imp (fun hp => ⟨hback, hp⟩) id⟩
  · rcases h with ⟨p, hp⟩ | hq
    · refine .inl ⟨hone, d, hd, p, hp.congr ?_⟩
      intro u v
      unfold Without
      apply and_iff_left_of_imp
      rintro huv ⟨rfl, rfl⟩
      exact hback huv
    · exact .inr ⟨hsrc, d, hd, .inr hq⟩

variable (hnodup : (Vs.map Prod.fst).Nodup) (hends : Joins Vs Es) (hdest : ∀ v ∈ dest, v ∈ Vs.map Prod.fst)
include hnodup hends hdest

theorem pathD_iff : (∃ dist, pathD Vs Es src dest σ dist) ↔
      ListedOnce Vs Es dest σ ∧ (IsPathD Vs Es src dest σ ∨ Astray Vs Es src dest σ) := by
  have hr := registered_d Es
  constructor
  · intro hboth
    obtain ⟨dist, h⟩ := hboth
    have hagree := hr.agree_iff.1 h.equal
    have hone := exists_dest hnodup h.one
    have hin := (srcIn_iff hnodup).1 h.member
    have hjoin := fun u v => hr.ends hnodup hagree h.ends (u := u) (v := v) rfl
    refine ⟨⟨hagree, h.one⟩, ?_⟩
    have hrest := h.rest
    split_ifs at hrest with hsrc
    · exact .inl ((onlySrc_iff hsrc).1 ⟨hin, hrest⟩)
    · obtain ⟨d, hd, huniq⟩ := id hone
      have hstep := stepped_of_posted hnodup hends hagree hin hjoin hd huniq hrest
      have hle : ∀ v, InVertex Vs σ v → dist v ≤ Vs.length := by
        rintro v ⟨b, hmem, -⟩
        exact h.dom v b hmem
      exact path_or_astray hd.1 hsrc hone (hstep.path_or_loop (ne_of_mem_of_not_mem hd.1 hsrc).symm hle)
  · intro hboth
    obtain ⟨⟨hagree, hsum⟩, h⟩ := hboth
    have hone := exists_dest hnodup hsum
    by_cases hsrc : src ∈ dest
    · have hpath := h.resolve_right fun ha => ha.1 hsrc
      obtain ⟨hin, honly⟩ := (onlySrc_iff hsrc).2 hpath
      refine ⟨fun _ => 0, (srcIn_iff hnodup).2 hin, fun _ _ _ => Nat.zero_le _, hr.agree_iff.2 hagree, ?_, hsum, ?_⟩
      · apply hr.endsPosted hnodup hends hagree
        rintro u v ⟨b, hmem, hb⟩
        rw [honly.edges u v b hmem] at hb
        exact absurd hb Bool.false_ne_true
      · rw [if_pos hsrc]
        exact honly
    · -- the destination of the path is the one that is in
      have hex : ∃ d ∈ dest, InVertex Vs σ d ∧ ((∃ p, IsPath (InVertex Vs σ) (Without (InEdge Es σ) d src) src d p) ∨
            ∃ q, LoopAndCycle (InVertex Vs σ) (Without (InEdge Es σ) d src) src d q) := by
        rcases h with ⟨-, d, hd, p, hp⟩ | ⟨-, d, hd, ⟨-, p, hp⟩ | ⟨q, hq⟩⟩
        · refine ⟨d, hd, (hp.mem d).2 (mem_of_getLast? hp.last), .inl ⟨p, hp.congr ?_⟩⟩
          intro u v
          refine (and_iff_left_of_imp ?_).symm
          rintro huv ⟨rfl, rfl⟩
          exact hp.not_into_first huv
        · exact ⟨d, hd, (hp.mem d).2 (mem_of_getLast? hp.last), .inl ⟨p, hp⟩⟩
        · exact ⟨d, hd, (hq.mem d).2 (.inr (mem_of_getLast? hq.last)), .inr ⟨q, hq⟩⟩
      obtain ⟨d, hd, hdin, hshape⟩ := hex
      have huniq : ∀ v, v ∈ dest ∧ InVertex Vs σ v → v = d := fun v hv => hone.unique hv ⟨hd, hdin⟩
      obtain ⟨dist, hle, hstep⟩ := exists_stepped (ne_of_mem_of_not_mem hd hsrc).symm (fun v hv => InVertex.mem hv) hshape
      rw [length_map] at hle
      refine ⟨dist, (srcIn_iff hnodup).2 hstep.start, fun v _ _ => hle v, hr.agree_iff.2 hagree,
        hr.endsPosted hnodup hends hagree hstep.ends, hsum, ?_⟩
      rw [if_neg hsrc]
      exact posted_of_stepped hnodup hends hagree hdest hd huniq hstep

omit [DecidableEq V] hnodup hends hdest in
theorem not_astray (h : IsPathD Vs Es src dest σ) : ¬ Astray Vs Es src dest σ := by
  obtain ⟨-, e, -, p, hp⟩ := h
  intro hboth
  obtain ⟨-, d, -, ⟨hback, -⟩ | ⟨q, hq⟩⟩ := hboth
  · exact hp.not_into_first hback
  · exact hp.not_into_first ((hq.edge src src).2 (.inl ⟨rfl, rfl⟩)).1

/-- `path_d` is right about an assignment just when it goes not astray, and a path has one value for the entries of every
edge and its destination listed once. -/
theorem pathD_meets_iff : ((∃ dist, pathD Vs Es src dest σ dist) ↔ IsPathD Vs Es src dest σ) ↔
      (ListedOnce Vs Es dest σ → ¬ Astray Vs Es src dest σ) ∧ (IsPathD Vs Es src dest σ → ListedOnce Vs Es dest σ) := by
  rw [pathD_iff hnodup hends hdest]
  have hnot := @not_astray _ _ Vs Es src dest σ
  tauto

end

theorem pathD_meets_iff_edge : (∃ dist, pathD [(1, .one), (2, .one)] [(1, 2, .var ())] 1 [2] (fun _ => true) dist) ↔
      IsPathD [(1, .one), (2, .one)] [(1, 2, .var ())] 1 [2] (fun _ => true) := by
  have hto : ∀ u, ¬ InEdge [(1, 2, Boolean.var ())] (fun _ => true) u 1 := by
    rintro u ⟨b, hmem, -⟩
    simp at hmem
  refine (pathD_meets_iff (by decide) ?_ (by decide)).2 ⟨fun _ => ?_, fun _ => ⟨?_, rfl⟩⟩
  · intro u v b hmem
    fin_cases hmem
    decide
  · intro h
    obtain ⟨-, d, -, ⟨hback, -⟩ | ⟨q, hq⟩⟩ := h
    · exact hto d hback
    · exact hto 1 ((hq.edge 1 1).2 (.inl ⟨rfl, rfl⟩)).1
  · intro u v b b' hb hb'
    fin_cases hb
    fin_cases hb'
    rfl

/-- The edge back from the destination to the source is accepted. -/
theorem pathD_edge_back :
    ¬ ((∃ dist, pathD [(1, .one), (2, .one)] [(1, 2, .var 0), (2, 1, .var 1)] 1 [2] (fun _ : ℕ => true) dist) ↔
      IsPathD [(1, .one), (2, .one)] [(1, 2, .var 0), (2, 1, .var 1)] 1 [2] (fun _ : ℕ => true)) := by
  intro hiff
  obtain ⟨-, d, -, p, hp⟩ := hiff.1 ⟨fun v => v - 1, by
    refine ⟨⟨.one, rfl, rfl⟩, ?_, fun p hp => absurd hp not_mem_nil, ?_, rfl, ?_⟩
    · intro v b hmem
      fin_cases hmem <;> decide
    · intro v1 v2 b hmem
      change (v1, v2, b) ∈ [(2, 1, Boolean.var 1), (1, 2, Boolean.var 0)] at hmem
      fin_cases hmem
      · exact ⟨true, true, rfl, rfl, id, id⟩
      · exact ⟨true, true, rfl, rfl, id, id⟩
    · rw [if_neg (by decide)]
      refine ⟨rfl, rfl, ?_, ?_⟩
      · intro v hv
        rw [mem_singleton.1 hv]
        exact ⟨true, rfl, fun _ => rfl⟩
      · intro v bv hmem hs hnot
        fin_cases hmem
        · exact absurd rfl hs
        · exact absurd (mem_singleton.2 rfl) hnot⟩
  exact hp.not_into_first (u := 2) ⟨.var 1, by decide, rfl⟩

end Picat.Graph

/-! # `path`: an undirected path between a source and one of several destinations -/

namespace Picat.Graph
open Paths List

variable {V ι : Type} [DecidableEq V]

section
variable (Vs : List (V × Boolean ι)) (Es : List (V × V × Boolean ι)) (src : V) (dest : List V) (lt : V → V → Bool)
variable (seen : SccSeen) (σ : ι → Bool) (x : SccVars)

structure PathPosted (r : EdgeTables V ι) : Prop where
  out : sumNeibs r σ src = 1
  intoDest : ∀ v ∈ dest, ∃ bv, (putVertices Vs v).map (Boolean.val σ) = some bv ∧ (bv = true → sumNeibs r σ v = 1)
  inner : ∀ v bv, (v, bv) ∈ Vs → v ≠ src → v ∉ dest → bv.val σ = true → sumNeibs r σ v = 2

structure path : Prop where
  scc : scc Vs Es seen σ x
  member : srcIn Vs src σ
  equal : ∀ p ∈ (registerEdges lt Es).equal, p.1.val σ = p.2.val σ
  ends : EndsPosted Vs σ (registerEdges lt Es)
  one : sumDest Vs dest σ = 1
  rest : if src ∈ dest then OnlySrc Vs Es src σ else PathPosted Vs src dest σ (registerEdges lt Es)

/-- One destination is in, and the vertices and edges that are in are those of a simple path between it and the source. -/
def IsPathU : Prop :=
  (∃! d, d ∈ dest ∧ InVertex Vs σ d) ∧ ∃ d ∈ dest, ∃ p, IsUPath (InVertex Vs σ) (UEdge Es σ) src d p

end

section
variable {Vs : List (V × Boolean ι)} {Es : List (V × V × Boolean ι)} {src : V} {dest : List V} {lt : V → V → Bool}
variable {seen : SccSeen} {σ : ι → Bool}

theorem sumDest_eq_one_iff (hnodup : (Vs.map Prod.fst).Nodup) (hdest : dest.Nodup) :
    sumDest Vs dest σ = 1 ↔ ∃! d, d ∈ dest ∧ InVertex Vs σ d := by
  rw [sumDest_eq, BoolSums.countP_eq_one_iff hdest]
  simp only [decide_eq_true_eq, vMap_eq_true_iff hnodup]

theorem onlySrc_iff_isPathU (hsrc : src ∈ dest) :
    InVertex Vs σ src ∧ OnlySrc Vs Es src σ ↔ IsPathU Vs Es src dest σ := by
  constructor
  · intro h
    obtain ⟨hin, honly⟩ := h
    obtain ⟨hone, d, hd, p, hp⟩ := onlySrc_iff hsrc |>.1 ⟨hin, honly⟩
    refine ⟨hone, d, hd, p, hp.nodup, hp.first, hp.last, hp.mem, ?_⟩
    intro u v
    exact or_congr (hp.edge u v) (hp.edge v u)
  · intro h
    obtain ⟨⟨d, hd, huniq⟩, e, he, p, hp⟩ := h
    have hes : e = src :=
      (huniq e ⟨he, (hp.mem e).2 hp.mem_last⟩).trans (huniq src ⟨hsrc, (hp.mem src).2 hp.mem_first⟩).symm
    have hone : p = [src] := eq_singleton hp.nodup hp.first (hes ▸ hp.last)
    subst hone
    have hnot : ∀ u v, ¬ InEdge Es σ u v := by
      intro u v huv
      rcases (hp.edge u v).1 (.inl huv) with hnext | hnext
      · exact absurd hnext.mem_tail not_mem_nil
      · exact absurd hnext.mem_tail not_mem_nil
    apply onlySrc_iff hsrc |>.2
    refine ⟨⟨d, hd, huniq⟩, e, he, [src], hp.nodup, hp.first, hp.last, hp.mem, ?_⟩
    intro u v
    apply iff_of_false (hnot u v)
    intro hnext
    exact absurd hnext.mem_tail not_mem_nil

variable (hnodup : (Vs.map Prod.fst).Nodup) (hagree : PairsAgree Es σ) (hdest : ∀ v ∈ dest, v ∈ Vs.map Prod.fst)
include hnodup hagree hdest

theorem pathDegrees_iff (hconn : Connects Vs Es σ) (hin : InVertex Vs σ src) {d : V}
    (hd : d ∈ dest ∧ InVertex Vs σ d) (huniq : ∀ v, v ∈ dest ∧ InVertex Vs σ v → v = d) :
    PathPosted Vs src dest σ (registerEdges lt Es) ↔ PathDegrees (InVertex Vs σ) (UEdge Es σ) src d := by
  have hr := registered_both lt Es
  have hagree' := entriesAgree_bothWays.2 hagree
  have hone : ∀ v, sumNeibs (registerEdges lt Es) σ v = 1 ↔ ∃! u, UEdge Es σ v u := by
    intro v
    rw [hr.sumNeibs_eq_one hagree']
    simp only [inEdge_bothWays]
  have htwo : ∀ v, sumNeibs (registerEdges lt Es) σ v = 2 ↔
      ∃ a b, a ≠ b ∧ UEdge Es σ v a ∧ UEdge Es σ v b ∧ ∀ c, UEdge Es σ v c → c = a ∨ c = b := by
    intro v
    rw [hr.sumNeibs_eq_two hagree']
    simp only [inEdge_bothWays]
  constructor
  · intro h
    refine ⟨?_, hin, hd.2, (hone src).1 h.out, ?_, ?_, hconn.2⟩
    · rintro u v (huv | hvu)
      · exact hconn.1 u v huv
      · exact (hconn.1 v u hvu).symm
    · obtain ⟨bv, hbv, hsum⟩ := h.intoDest d hd.1
      rw [(vMap_eq_true_iff hnodup).2 hd.2, Option.some.injEq] at hbv
      exact (hone d).1 (hsum hbv.symm)
    · intro v hv hs ht
      obtain ⟨bv, hmem, hb⟩ := id hv
      exact (htwo v).1 (h.inner v bv hmem hs (fun hmem' => ht (huniq v ⟨hmem', hv⟩)) hb)
  · intro h
    refine ⟨(hone src).2 h.startOne, ?_, ?_⟩
    · intro v hv
      obtain ⟨b, hmem, hb⟩ := @vMap_eq _ _ _ Vs σ hnodup v (hdest v hv)
      refine ⟨_, hb, ?_⟩
      intro hval
      rw [huniq v ⟨hv, b, hmem, hval⟩]
      exact (hone d).2 h.targetOne
    · intro v bv hmem hs hnot hb
      exact (htwo v).2 (h.innerTwo v ⟨bv, hmem, hb⟩ hs (fun heq => hnot (heq ▸ hd.1)))

end

section
variable {Vs : List (V × Boolean ι)} {Es : List (V × V × Boolean ι)} {src : V} {dest : List V} {lt : V → V → Bool}
variable {seen : SccSeen} {σ : ι → Bool}

omit [DecidableEq V] in
theorem connects_of_path {d : V} {p : List V} (h : IsUPath (InVertex Vs σ) (UEdge Es σ) src d p) :
    Connects Vs Es σ := by
  have hreach : ∀ v, InVertex Vs σ v → Relation.ReflTransGen (UEdge Es σ) src v := by
    intro v hv
    obtain ⟨i, hi, rfl⟩ := getElem_of_mem ((h.mem v).1 hv)
    exact h.reach i (List.getElem?_eq_getElem hi)
  refine ⟨?_, ?_⟩
  · intro u v huv
    rw [h.mem u, h.mem v]
    rcases (h.edge u v).1 (.inl huv) with hn | hn
    · exact ⟨hn.mem_left, hn.mem_right⟩
    · exact ⟨hn.mem_right, hn.mem_left⟩
  · intro u v hu hv
    exact (h.reach_symm (hreach u hu)).trans (hreach v hv)

/-- For distinct vertices, edges between them without loops and distinct destinations, `path` has a solution just when
the entries of every pair of vertices have one value and what is in is a simple path from the source to the destination
that is in. -/
theorem path_iff (hnodup : (Vs.map Prod.fst).Nodup) (hends : Joins Vs Es) (hloop : ∀ u v b, (u, v, b) ∈ Es → u ≠ v)
    (hsrc : src ∈ Vs.map Prod.fst) (hdest : ∀ v ∈ dest, v ∈ Vs.map Prod.fst) (hdistinct : dest.Nodup)
    (hseen : ∀ r es, sccCheck Vs Es = .ok (r, es) → seen.Sound r es) :
    (∃ x, path Vs Es src dest lt seen σ x) ↔ PairsAgree Es σ ∧ IsPathU Vs Es src dest σ := by
  have hr := registered_both lt Es
  have hne : Vs ≠ [] := by
    rintro rfl
    exact absurd hsrc not_mem_nil
  have hscc := scc_iff hnodup hne hends hloop seen hseen σ
  have hlist : Joins Vs (bothWays Es) := by
    intro u v b hmem
    rcases mem_bothWays.1 hmem with h | h
    · exact hends u v b h
    · exact (hends v u b h).symm
  have hirr : ∀ v, ¬ UEdge Es σ v v := by
    rintro v (⟨b, h, -⟩ | ⟨b, h, -⟩)
    · exact hloop v v b h rfl
    · exact hloop v v b h rfl
  constructor
  · intro hboth
    obtain ⟨x, h⟩ := hboth
    obtain ⟨hagree, hconn⟩ := hscc.1 ⟨x, h.scc⟩
    have hin := (srcIn_iff hnodup).1 h.member
    have hone := (sumDest_eq_one_iff hnodup hdistinct).1 h.one
    refine ⟨hagree, ?_⟩
    have hrest := h.rest
    split_ifs at hrest with hsd
    · exact (onlySrc_iff_isPathU hsd).1 ⟨hin, hrest⟩
    · obtain ⟨d, hd, huniq⟩ := id hone
      have hdeg := (pathDegrees_iff hnodup hagree hdest hconn hin hd huniq).1 hrest
      have hsd' : src ≠ d := (ne_of_mem_of_not_mem hd.1 hsd).symm
      have hsymm : ∀ u v, UEdge Es σ u v → UEdge Es σ v u := fun u v => UEdge.symm
      have hmem : ∀ v, InVertex Vs σ v → v ∈ Vs.map Prod.fst := fun v => InVertex.mem
      exact ⟨hone, d, hd.1, (isUPath_iff hsd' hsymm hirr hmem).2 hdeg⟩
  · intro hboth
    obtain ⟨hagree, hpath⟩ := hboth
    obtain ⟨hone, d, hd, p, hp⟩ := id hpath
    have hconn := connects_of_path hp
    obtain ⟨x, hx⟩ := hscc.2 ⟨hagree, hconn⟩
    have hin : InVertex Vs σ src := (hp.mem src).2 hp.mem_first
    have hdin : InVertex Vs σ d := (hp.mem d).2 hp.mem_last
    have huniq : ∀ v, v ∈ dest ∧ InVertex Vs σ v → v = d := fun v hv => hone.unique hv ⟨hd, hdin⟩
    have hposted : EndsPosted Vs σ (registerEdges lt Es) := by
      apply hr.endsPosted hnodup hlist (entriesAgree_bothWays.2 hagree)
      intro u v huv
      rcases inEdge_bothWays.1 huv with h | h
      · exact hconn.1 u v h
      · exact (hconn.1 v u h).symm
    refine ⟨x, hx, (srcIn_iff hnodup).2 hin, hr.agree_iff.2 (entriesAgree_bothWays.2 hagree), hposted,
      (sumDest_eq_one_iff hnodup hdistinct).2 hone, ?_⟩
    split_ifs with hsd
    · exact ((onlySrc_iff_isPathU hsd).2 hpath).2
    · exact (pathDegrees_iff hnodup hagree hdest hconn hin ⟨hd, hdin⟩ huniq).2
        (hp.degrees (ne_of_mem_of_not_mem hd hsd).symm)

end

theorem isPathU_pair {Es : List (ℕ × ℕ × Boolean ℕ)} {σ : ℕ → Bool}
    (hE : ∀ u v, UEdge Es σ u v ↔ (u = 1 ∧ v = 2) ∨ (v = 1 ∧ u = 2)) :
    IsPathU [(1, .one), (2, .one)] Es 1 [2] σ := by
  refine ⟨⟨2, ⟨by decide, .one, by decide, rfl⟩, ?_⟩, 2, by decide, [1, 2], by decide, rfl, rfl, ?_, ?_⟩
  · rintro d ⟨hd, -⟩
    exact mem_singleton.1 hd
  · intro v
    constructor
    · exact InVertex.mem
    · intro hv
      fin_cases hv
      · exact ⟨.one, by decide, rfl⟩
      · exact ⟨.one, by decide, rfl⟩
  · intro u v
    rw [hE, next_pair, next_pair]

theorem path_iff_edge :
    ∃ x, path [(1, .one), (2, .one)] [(1, 2, .var 0)] 1 [2] (fun u v => decide (u < v)) nothingBound (fun _ => true) x := by
  refine (path_iff (by decide) ?_ ?_ (by decide) (by decide) (by decide)
    fun r es _ => nothingBound_sound r es).2 ⟨?_, isPathU_pair ?_⟩
  · intro u v b hmem
    fin_cases hmem
    decide
  · intro u v b hmem
    fin_cases hmem
    decide
  · intro u v b b' hb hb'
    simp only [Listed, mem_singleton, Prod.mk.injEq] at hb hb'
    rcases hb with ⟨-, -, rfl⟩ | ⟨-, -, rfl⟩ <;> rcases hb' with ⟨-, -, rfl⟩ | ⟨-, -, rfl⟩ <;> rfl
  · intro u v
    unfold UEdge
    rw [inEdge_iff, inEdge_iff]
    simp [Boolean.val]
    omega

/-- The edge in both orientations, in as one and out as the other. -/
theorem path_both_orientations :
    ¬ ((∃ x, path [(1, .one), (2, .one)] [(1, 2, .var 0), (2, 1, .var 1)] 1 [2] (fun u v => decide (u < v))
        nothingBound (fun i => i == 0) x) ↔
      IsPathU [(1, .one), (2, .one)] [(1, 2, .var 0), (2, 1, .var 1)] 1 [2] (fun i => i == 0)) := by
  intro hiff
  obtain ⟨x, hx⟩ := hiff.2 (isPathU_pair (by
    intro u v
    unfold UEdge
    rw [inEdge_iff, inEdge_iff]
    simp [Boolean.val]
    omega))
  have hequal := hx.equal (.var 1, .var 0) (by decide)
  exact absurd hequal (by decide)

end Picat.Graph
