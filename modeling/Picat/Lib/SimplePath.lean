import Mathlib.Data.Set.Card

/-!
# Simple paths as lists

* `stepped_iff` : up to an edge from the target back to the start, a graph with such a rank is one of the two.
-/

namespace Paths

open List

variable {α : Type*} {inV : α → Prop} {E : α → α → Prop} {s t : α}

/-- `v` comes right after `u` on `p`. -/
def Next (p : List α) (u v : α) : Prop := ∃ i : ℕ, p[i]? = some u ∧ p[i + 1]? = some v

/-- The vertices and edges are those of one list without repeats, from `s` to `t`. -/
structure IsPath (inV : α → Prop) (E : α → α → Prop) (s t : α) (p : List α) : Prop where
  nodup : p.Nodup
  first : p.head? = some s
  last : p.getLast? = some t
  mem : ∀ v, inV v ↔ v ∈ p
  edge : ∀ u v, E u v ↔ Next p u v

/-- The vertices and edges are those of a loop at `s` and of a cycle through `t`. -/
structure LoopAndCycle (inV : α → Prop) (E : α → α → Prop) (s t : α) (q : List α) : Prop where
  nodup : q.Nodup
  notMem : s ∉ q
  last : q.getLast? = some t
  mem : ∀ v, inV v ↔ v = s ∨ v ∈ q
  edge : ∀ u v, E u v ↔ (u = s ∧ v = s) ∨ Next (t :: q) u v

/-! ## Neighbours on a list -/

section
variable {p q : List α} {z u v w : α}

theorem Next.mem_left (h : Next p u v) : u ∈ p := by
  obtain ⟨i, hu, -⟩ := h
  exact mem_of_getElem? hu

theorem Next.mem_right (h : Next p u v) : v ∈ p := by
  obtain ⟨i, -, hv⟩ := h
  exact mem_of_getElem? hv

theorem next_cons_iff : Next (z :: q) u v ↔ ∃ i : ℕ, (z :: q)[i]? = some u ∧ q[i]? = some v := by
  unfold Next
  simp only [List.getElem?_cons_succ]

theorem Next.mem_tail (h : Next (z :: q) u v) : v ∈ q := by
  obtain ⟨i, -, hv⟩ := next_cons_iff.1 h
  exact mem_of_getElem? hv

theorem exists_prev (hv : v ∈ q) : ∃ u, Next (z :: q) u v := by
  obtain ⟨i, hi, rfl⟩ := getElem_of_mem hv
  have hlt : i < (z :: q).length := by
    rw [length_cons]
    omega
  exact ⟨(z :: q)[i], next_cons_iff.2 ⟨i, List.getElem?_eq_getElem hlt, List.getElem?_eq_getElem hi⟩⟩

theorem index_unique {i j : ℕ} (hp : p.Nodup) (hi : p[i]? = some u) (hj : p[j]? = some u) : i = j := by
  obtain ⟨hlt, -⟩ := List.getElem?_eq_some_iff.1 hi
  exact (List.getElem?_inj hlt hp).1 (hi.trans hj.symm)

theorem prev_unique (hq : q.Nodup) (hu : Next (z :: q) u v) (hw : Next (z :: q) w v) : u = w := by
  obtain ⟨i, hiu, hiv⟩ := next_cons_iff.1 hu
  obtain ⟨j, hjw, hjv⟩ := next_cons_iff.1 hw
  rw [index_unique hq hiv hjv, hjw, Option.some.injEq] at hiu
  exact hiu.symm

theorem exists_next (hv : v ∈ p) (hlast : p.getLast? ≠ some v) : ∃ w, Next p v w := by
  obtain ⟨i, hi, rfl⟩ := getElem_of_mem hv
  by_cases hlt : i + 1 < p.length
  · exact ⟨p[i + 1], i, List.getElem?_eq_getElem hi, List.getElem?_eq_getElem hlt⟩
  · rw [List.getLast?_eq_getElem?] at hlast
    have hidx : p.length - 1 = i := by omega
    rw [hidx, List.getElem?_eq_getElem hi] at hlast
    exact absurd rfl hlast

theorem next_unique (hp : p.Nodup) (hu : Next p v u) (hw : Next p v w) : u = w := by
  obtain ⟨i, hiv, hiu⟩ := hu
  obtain ⟨j, hjv, hjw⟩ := hw
  rw [index_unique hp hiv hjv, hjw, Option.some.injEq] at hiu
  exact hiu.symm

theorem next_pair : Next [z, w] u v ↔ u = z ∧ v = w := by
  rw [next_cons_iff]
  constructor
  · intro h
    obtain ⟨i, hu, hv⟩ := h
    cases i with
    | zero => exact ⟨(Option.some.inj hu).symm, (Option.some.inj hv).symm⟩
    | succ i => exact absurd hv (by simp)
  · intro h
    obtain ⟨rfl, rfl⟩ := h
    exact ⟨0, rfl, rfl⟩

theorem next_of_cons (h : Next (z :: q) u v) (hu : u ≠ z) : Next q u v := by
  obtain ⟨i, hiu, hiv⟩ := next_cons_iff.1 h
  cases i with
  | zero => exact absurd (Option.some.inj hiu).symm hu
  | succ i => exact ⟨i, hiu, hiv⟩

theorem Next.cons (h : Next q u v) : Next (z :: q) u v := by
  obtain ⟨i, hiu, hiv⟩ := h
  exact ⟨i + 1, hiu, hiv⟩

theorem next_first (hq : q.head? = some v) : Next (z :: q) z v := by
  refine next_cons_iff.2 ⟨0, rfl, ?_⟩
  rw [← List.head?_eq_getElem?]
  exact hq

theorem first_of_next (hz : z ∉ q) (h : Next (z :: q) z v) : q.head? = some v := by
  obtain ⟨i, hiz, hiv⟩ := next_cons_iff.1 h
  cases i with
  | zero =>
    rw [List.head?_eq_getElem?]
    exact hiv
  | succ i => exact absurd (mem_of_getElem? (l := q) hiz) hz

theorem rel_of_next (h : p.IsChain E) (huv : Next p u v) : E u v := by
  obtain ⟨i, hu, hv⟩ := huv
  obtain ⟨hi, rfl⟩ := List.getElem?_eq_some_iff.1 hu
  obtain ⟨hi', rfl⟩ := List.getElem?_eq_some_iff.1 hv
  exact isChain_iff_getElem.1 h i hi'

theorem isChain_concat (h : (z :: q).IsChain E) (hlast : q.getLast? = some u) (huv : E u v) :
    (z :: (q ++ [v])).IsChain E := by
  rw [← cons_append, isChain_append]
  refine ⟨h, isChain_singleton v, ?_⟩
  intro x hx y hy
  rw [List.getLast?_cons, hlast] at hx
  rw [← Option.some.inj hx, ← Option.some.inj hy]
  exact huv

theorem idxOf_next [DecidableEq α] (hp : p.Nodup) (h : Next p u v) : p.idxOf v = p.idxOf u + 1 := by
  obtain ⟨i, hu, hv⟩ := h
  obtain ⟨hi, rfl⟩ := List.getElem?_eq_some_iff.1 hu
  obtain ⟨hi', rfl⟩ := List.getElem?_eq_some_iff.1 hv
  rw [hp.idxOf_getElem, hp.idxOf_getElem]

end

theorem IsPath.exists_cons {p : List α} (h : IsPath inV E s t p) : ∃ q, p = s :: q := by
  have hfirst := h.first
  cases p with
  | nil => exact absurd hfirst.symm (Option.some_ne_none s)
  | cons a q => exact ⟨q, by rw [Option.some.inj hfirst]⟩

theorem eq_singleton {p : List α} (hp : p.Nodup) (hfirst : p.head? = some s) (hlast : p.getLast? = some s) : p = [s] := by
  cases p with
  | nil => exact absurd hfirst.symm (Option.some_ne_none s)
  | cons a q =>
    have ha : a = s := Option.some.inj hfirst
    subst ha
    cases hq : q.getLast? with
    | none => rw [List.getLast?_eq_none_iff.1 hq]
    | some b =>
      rw [List.getLast?_cons, hq] at hlast
      have hba : b = a := Option.some.inj hlast
      exact absurd (hba ▸ mem_of_getLast? hq) (nodup_cons.1 hp).1

theorem IsPath.not_into_first {p : List α} {u : α} (h : IsPath inV E s t p) : ¬ E u s := by
  intro hus
  obtain ⟨i, -, hi⟩ := (h.edge u s).1 hus
  have hfirst := h.first
  rw [List.head?_eq_getElem?] at hfirst
  have := index_unique h.nodup hfirst hi
  omega

theorem IsPath.congr {E' : α → α → Prop} {p : List α} (hE : ∀ u v, E u v ↔ E' u v) (h : IsPath inV E s t p) :
    IsPath inV E' s t p :=
  ⟨h.nodup, h.first, h.last, h.mem, fun u v => (hE u v).symm.trans (h.edge u v)⟩

/-! ## Degrees and ranks -/

/-- Every vertex has its edges, and an edge out of an inner vertex steps the rank. -/
structure Stepped (inV : α → Prop) (E : α → α → Prop) (s t : α) (rank : α → ℕ) : Prop where
  ends : ∀ u v, E u v → inV u ∧ inV v
  start : inV s
  out : ∃! v, E s v
  rankStart : rank s = 0
  target : inV t
  into : ∃! u, E u t
  innerIn : ∀ v, inV v → v ≠ s → v ≠ t → ∃! u, E u v
  innerOut : ∀ v, inV v → v ≠ s → v ≠ t → ∃! u, E v u
  step : ∀ v, inV v → v ≠ s → v ≠ t → ∀ u, E v u → rank u = rank v + 1

namespace Stepped
variable {rank : α → ℕ}

section
variable (h : Stepped inV E s t rank)
include h

theorem intoUnique {v : α} (hv : inV v) (hs : v ≠ s) : ∃! u, E u v := by
  by_cases ht : v = t
  · rw [ht]
    exact h.into
  · exact h.innerIn v hv hs ht

theorem exists_back (n : ℕ) {v : α} (hv : inV v) (hs : v ≠ s) (ht : v ≠ t) (hn : rank v = n) :
    ∃ q z, q.Nodup ∧ q.getLast? = some v ∧ (∀ x ∈ q, x ≠ s ∧ x ≠ t ∧ rank x ≤ n) ∧ (z = s ∨ z = t) ∧
      (z :: q).IsChain E := by
  induction n using Nat.strong_induction_on generalizing v with
  | _ n ih =>
    obtain ⟨u, hu, -⟩ := h.innerIn v hv hs ht
    by_cases hz : u = s ∨ u = t
    · refine ⟨[v], u, nodup_singleton v, rfl, ?_, hz, ?_⟩
      · intro x hx
        rw [mem_singleton.1 hx]
        exact ⟨hs, ht, hn.le⟩
      · exact isChain_pair.2 hu
    · rw [not_or] at hz
      have hstep := h.step u (h.ends u v hu).1 hz.1 hz.2 v hu
      obtain ⟨q, z, hq, hlast, hmem, hz', hchain⟩ := ih (rank u) (by omega) (h.ends u v hu).1 hz.1 hz.2 rfl
      have hnot : v ∉ q := fun hvq => by
        have := (hmem v hvq).2.2
        omega
      refine ⟨q ++ [v], z, ?_, List.getLast?_concat, ?_, hz', ?_⟩
      · exact List.Nodup.append hq (nodup_singleton v) (disjoint_singleton.2 hnot)
      · intro x hx
        rcases mem_append.1 hx with hx | hx
        · obtain ⟨hxs, hxt, hle⟩ := hmem x hx
          exact ⟨hxs, hxt, by omega⟩
        · rw [mem_singleton.1 hx]
          exact ⟨hs, ht, hn.le⟩
      · exact isChain_concat hchain hlast hu

theorem exists_back_target (hst : s ≠ t) :
    ∃ q z, q.Nodup ∧ q.getLast? = some t ∧ s ∉ q ∧ (∀ x ∈ q, x ≠ t → inV x) ∧ (z = s ∨ z = t) ∧ (z :: q).IsChain E := by
  obtain ⟨u, hu, -⟩ := h.into
  by_cases hz : u = s ∨ u = t
  · refine ⟨[t], u, nodup_singleton t, rfl, ?_, ?_, hz, isChain_pair.2 hu⟩
    · rw [mem_singleton]
      exact hst
    · intro x hx hne
      exact absurd (mem_singleton.1 hx) hne
  · rw [not_or] at hz
    obtain ⟨q, z, hq, hlast, hmem, hz', hchain⟩ := h.exists_back _ (h.ends u t hu).1 hz.1 hz.2 rfl
    have hchain' := isChain_concat hchain hlast hu
    refine ⟨q ++ [t], z, ?_, List.getLast?_concat, ?_, ?_, hz', hchain'⟩
    · refine List.Nodup.append hq (nodup_singleton t) (disjoint_singleton.2 ?_)
      intro ht
      exact (hmem t ht).2.1 rfl
    · rw [mem_append, mem_singleton, not_or]
      exact ⟨fun hs => (hmem s hs).1 rfl, hst⟩
    · intro x hx hne'
      obtain ⟨y, hy⟩ := exists_prev (z := z) hx
      exact (h.ends _ _ (rel_of_next hchain' hy)).2

theorem mem_back {n : ℕ} (hn : ∀ v, inV v → rank v ≤ n) {q : List α} {z : α}
    (hlast : q.getLast? = some t) (hz : z = s ∨ z = t) (hchain : (z :: q).IsChain E) (k : ℕ) {v : α} (hv : inV v)
    (hs : v ≠ s) (ht : v ≠ t) (hk : n ≤ rank v + k) : v ∈ q := by
  obtain ⟨u, hu, -⟩ := h.innerOut v hv hs ht
  have hrank := h.step v hv hs ht u hu
  have huV := (h.ends v u hu).2
  induction k generalizing v u with
  | zero =>
    have := hn u huV
    omega
  | succ k ih =>
    have hus : u ≠ s := by
      rintro rfl
      rw [h.rankStart] at hrank
      omega
    have huq : u ∈ q := by
      by_cases hut : u = t
      · rw [hut]
        exact mem_of_getLast? hlast
      · obtain ⟨w, hw, -⟩ := h.innerOut u huV hus hut
        exact ih huV hus hut (by omega) w hw (h.step u huV hus hut w hw) (h.ends u w hw).2
    obtain ⟨y, hy⟩ := exists_prev (z := z) huq
    have hyv : y = v := (h.intoUnique huV hus).unique (rel_of_next hchain hy) hu
    rw [hyv] at hy
    rcases mem_cons.1 hy.mem_left with hvz | hvq
    · exact absurd hvz (fun heq => hz.elim (fun h1 => hs (heq.trans h1)) (fun h1 => ht (heq.trans h1)))
    · exact hvq

end

end Stepped

/-- `E` without the edge from `u` to `v`. -/
def Without (E : α → α → Prop) (u v x y : α) : Prop := E x y ∧ ¬ (x = u ∧ y = v)

theorem Stepped.path_or_loop {rank : α → ℕ} {n : ℕ} (h : Stepped inV E s t rank) (hst : s ≠ t)
    (hn : ∀ v, inV v → rank v ≤ n) :
    (∃ p, IsPath inV (Without E t s) s t p) ∨ ∃ q, LoopAndCycle inV (Without E t s) s t q := by
  obtain ⟨q, z, hq, hlast, hsq, hqV, hz, hchain⟩ := h.exists_back_target hst
  have htq : t ∈ q := mem_of_getLast? hlast
  have hmem : ∀ v, inV v ↔ v = s ∨ v ∈ q := by
    intro v
    constructor
    · intro hv
      by_cases hs : v = s
      · exact .inl hs
      · by_cases ht : v = t
        · rw [ht]
          exact .inr htq
        · exact .inr (h.mem_back hn hlast hz hchain n hv hs ht (Nat.le_add_left n _))
    · rintro (rfl | hv)
      · exact h.start
      · by_cases ht : v = t
        · rw [ht]
          exact h.target
        · exact hqV v hv ht
  have hedge : ∀ u v, E u v → v ≠ s → Next (z :: q) u v := by
    intro u v huv hs
    have hv := (h.ends u v huv).2
    obtain ⟨y, hy⟩ := exists_prev (z := z) (((hmem v).1 hv).resolve_left hs)
    rw [(h.intoUnique hv hs).unique huv (rel_of_next hchain hy)]
    exact hy
  -- an edge into the start is a loop or comes from the target
  have hback : ∀ u, E u s → u = s ∨ u = t := by
    intro u hu
    by_contra hno
    rw [not_or] at hno
    have := h.step u (h.ends u s hu).1 hno.1 hno.2 s hu
    rw [h.rankStart] at this
    omega
  have hnext : ∀ u v, Next (z :: q) u v → Without E t s u v := fun u v huv =>
    ⟨rel_of_next hchain huv, fun heq => hsq (heq.2 ▸ huv.mem_tail)⟩
  rcases hz with rfl | rfl
  · left
    refine ⟨z :: q, nodup_cons.2 ⟨hsq, hq⟩, rfl, ?_, ?_, ?_⟩
    · rw [List.getLast?_cons, hlast]
      rfl
    · intro v
      rw [hmem v, mem_cons]
    · intro u v
      refine ⟨?_, hnext u v⟩
      intro hp
      obtain ⟨huv, hnot⟩ := hp
      apply hedge u v huv
      intro hvz
      rw [hvz] at huv hnot
      rcases hback u huv with hu | hu
      · -- the edge out of the start leads into the list
        rw [hu] at huv
        obtain ⟨w, hw⟩ := @exists_next _ (z :: q) z mem_cons_self (by
          rw [List.getLast?_cons, hlast]
          exact fun heq => hst (Option.some.inj heq).symm)
        have hzw := h.out.unique huv (rel_of_next hchain hw)
        exact hsq (hzw ▸ hw.mem_tail)
      · exact hnot ⟨hu, rfl⟩
  · right
    refine ⟨q, hq, hsq, hlast, hmem, ?_⟩
    intro u v
    constructor
    · intro hp
      obtain ⟨huv, hnot⟩ := hp
      by_cases hv : v = s
      · subst hv
        rcases hback u huv with rfl | rfl
        · exact .inl ⟨rfl, rfl⟩
        · exact absurd ⟨rfl, rfl⟩ hnot
      · exact .inr (hedge u v huv hv)
    · rintro (⟨rfl, rfl⟩ | huv)
      · obtain ⟨y, hy, -⟩ := h.out
        have hys : y = v := by
          by_contra hne
          rcases mem_cons.1 (hedge v y hy hne).mem_left with heq | hmem'
          · exact hst heq
          · exact hsq hmem'
        rw [hys] at hy
        exact ⟨hy, fun heq => hst heq.1⟩
      · exact hnext u v huv

/-! ## Ranks of a path -/

section
variable [DecidableEq α] {q : List α} {z : α}

/-- The start has rank 0, and the vertices of the list have their places. -/
def place (s : α) (q : List α) (v : α) : ℕ := if v = s then 0 else q.idxOf v + 1

theorem stepped_of_list (hq : q.Nodup) (hlast : q.getLast? = some t) (hsq : s ∉ q) (hz : z = s ∨ z = t)
    (hmem : ∀ v, inV v ↔ v = s ∨ v ∈ q)
    (hedge : ∀ u v, Without E t s u v ↔ (z = t ∧ u = s ∧ v = s) ∨ Next (z :: q) u v) :
    Stepped inV E s t (place s q) := by
  have htq : t ∈ q := mem_of_getLast? hlast
  have hts : t ≠ s := ne_of_mem_of_not_mem htq hsq
  have hnext : ∀ u v, Next (z :: q) u v → E u v := fun u v h => ((hedge u v).2 (.inr h)).1
  have hinto : ∀ v ∈ q, ∃! u, E u v := by
    intro v hv
    have hvs : v ≠ s := ne_of_mem_of_not_mem hv hsq
    obtain ⟨u, hu⟩ := exists_prev (z := z) hv
    refine ⟨u, hnext u v hu, ?_⟩
    intro w hw
    rcases (hedge w v).1 ⟨hw, fun heq => hvs heq.2⟩ with ⟨-, -, heq⟩ | hw
    · exact absurd heq hvs
    · exact prev_unique hq hw hu
  have houtOf : ∀ v ∈ q, v ≠ t → ∀ u, E v u → Next q v u := by
    intro v hv ht u hu
    rcases (hedge v u).1 ⟨hu, fun heq => ht heq.1⟩ with ⟨-, heq, -⟩ | hu
    · exact absurd heq (ne_of_mem_of_not_mem hv hsq)
    · apply next_of_cons hu
      rcases hz with rfl | rfl
      · exact ne_of_mem_of_not_mem hv hsq
      · exact ht
  have hin : ∀ v, inV v → v ≠ s → v ∈ q := fun v hv hs => ((hmem v).1 hv).resolve_left hs
  refine ⟨?_, (hmem s).2 (.inl rfl), ?_, if_pos rfl, (hmem t).2 (.inr htq), hinto t htq,
    fun v hv hs _ => hinto v (hin v hv hs), ?_, ?_⟩
  · intro u v huv
    by_cases hback : u = t ∧ v = s
    · rw [hback.1, hback.2]
      exact ⟨(hmem t).2 (.inr htq), (hmem s).2 (.inl rfl)⟩
    · rcases (hedge u v).1 ⟨huv, hback⟩ with ⟨-, hu, hv⟩ | h
      · exact ⟨(hmem u).2 (.inl hu), (hmem v).2 (.inl hv)⟩
      · refine ⟨?_, (hmem v).2 (.inr h.mem_tail)⟩
        rcases mem_cons.1 h.mem_left with rfl | hu
        · exact hz.elim (fun h => (hmem u).2 (.inl h)) (fun h => (hmem u).2 (.inr (h ▸ htq)))
        · exact (hmem u).2 (.inr hu)
  · rcases hz with rfl | rfl
    · obtain ⟨w, hw⟩ := @exists_next _ (z :: q) z mem_cons_self (by
        rw [List.getLast?_cons, hlast]
        exact fun heq => hts (Option.some.inj heq))
      refine ⟨w, hnext z w hw, ?_⟩
      intro y hy
      rcases (hedge z y).1 ⟨hy, fun heq => hts heq.1.symm⟩ with ⟨heq, -⟩ | hy
      · exact absurd heq.symm hts
      · exact next_unique (nodup_cons.2 ⟨hsq, hq⟩) hy hw
    · refine ⟨s, ((hedge s s).2 (.inl ⟨rfl, rfl, rfl⟩)).1, ?_⟩
      intro y hy
      rcases (hedge s y).1 ⟨hy, fun heq => hts heq.1.symm⟩ with ⟨-, -, heq⟩ | hy
      · exact heq
      · rcases mem_cons.1 hy.mem_left with heq | hs
        · exact absurd heq.symm hts
        · exact absurd hs hsq
  · intro v hv hs ht
    have hvq := hin v hv hs
    obtain ⟨w, hw⟩ := exists_next hvq (fun heq => ht (Option.some.inj (hlast.symm.trans heq)).symm)
    exact ⟨w, hnext v w hw.cons, fun y hy => next_unique hq (houtOf v hvq ht y hy) hw⟩
  · intro v hv hs ht u hu
    have hvq := hin v hv hs
    have huq := houtOf v hvq ht u hu
    unfold place
    rw [if_neg hs, if_neg (ne_of_mem_of_not_mem huq.mem_right hsq), idxOf_next hq huq]

theorem place_le (hq : q.Nodup) (hsq : s ∉ q) {l : List α} (hl : ∀ v, v = s ∨ v ∈ q → v ∈ l) (v : α) :
    place s q v ≤ l.length := by
  have hsub : (s :: q).Subperm l :=
    subperm_of_subset (nodup_cons.2 ⟨hsq, hq⟩) fun v hv => hl v (mem_cons.1 hv)
  have hlen := hsub.length_le
  rw [length_cons] at hlen
  have hidx := idxOf_le_length (a := v) (l := q)
  unfold place
  split_ifs
  · exact Nat.zero_le _
  · omega

/-- A path, or a loop and a cycle, can be ranked, also with an edge back from the target to the start. -/
theorem exists_stepped (hst : s ≠ t) {l : List α} (hl : ∀ v, inV v → v ∈ l)
    (h : (∃ p, IsPath inV (Without E t s) s t p) ∨ ∃ q, LoopAndCycle inV (Without E t s) s t q) :
    ∃ rank, (∀ v, rank v ≤ l.length) ∧ Stepped inV E s t rank := by
  rcases h with ⟨p, hp⟩ | ⟨q, hq⟩
  · obtain ⟨q, rfl⟩ := hp.exists_cons
    obtain ⟨hsq, hq⟩ := nodup_cons.1 hp.nodup
    have hmem : ∀ v, inV v ↔ v = s ∨ v ∈ q := fun v => (hp.mem v).trans mem_cons
    have hlast : q.getLast? = some t := by
      have hlast := hp.last
      rw [List.getLast?_cons] at hlast
      cases hq' : q.getLast? with
      | none =>
        rw [hq'] at hlast
        exact absurd (Option.some.inj hlast) hst
      | some y =>
        rw [hq'] at hlast
        exact hlast
    refine ⟨place s q, place_le hq hsq fun v hv => hl v ((hmem v).2 hv), ?_⟩
    apply stepped_of_list hq hlast hsq (.inl rfl) hmem
    intro u v
    rw [hp.edge u v]
    exact (or_iff_right fun h => hst h.1).symm
  · refine ⟨place s q, place_le hq.nodup hq.notMem fun v hv => hl v ((hq.mem v).2 hv), ?_⟩
    apply stepped_of_list hq.nodup hq.last hq.notMem (.inr rfl) hq.mem
    intro u v
    rw [hq.edge u v]
    simp

end

end Paths

/-! # Undirected simple paths by degrees -/

namespace Paths
open Relation List

variable {α : Type*} {inV : α → Prop} {E : α → α → Prop} {s t : α}

/-- The vertices and edges are those of one list without repeats, between `s` and `t`. -/
structure IsUPath (inV : α → Prop) (E : α → α → Prop) (s t : α) (p : List α) : Prop where
  nodup : p.Nodup
  first : p.head? = some s
  last : p.getLast? = some t
  mem : ∀ v, inV v ↔ v ∈ p
  edge : ∀ u v, E u v ↔ Next p u v ∨ Next p v u

/-- The degrees of a path between `s` and `t`. -/
structure PathDegrees (inV : α → Prop) (E : α → α → Prop) (s t : α) : Prop where
  ends : ∀ u v, E u v → inV u ∧ inV v
  start : inV s
  target : inV t
  startOne : ∃! v, E s v
  targetOne : ∃! v, E t v
  innerTwo : ∀ v, inV v → v ≠ s → v ≠ t → ∃ a b, a ≠ b ∧ E v a ∧ E v b ∧ ∀ c, E v c → c = a ∨ c = b
  conn : ∀ u v, inV u → inV v → ReflTransGen E u v

/-- A list to `t` whose vertices have no edges beside those of the list, except the first. -/
structure Followed (E : α → α → Prop) (t x : α) (r : List α) : Prop where
  nodup : (x :: r).Nodup
  last : (x :: r).getLast? = some t
  chain : (x :: r).IsChain E
  known : ∀ z ∈ r, ∀ y, E z y → Next (x :: r) z y ∨ Next (x :: r) y z

section
variable (h : PathDegrees inV E s t) (hsymm : ∀ u v, E u v → E v u) (hirr : ∀ v, ¬ E v v)
include h hsymm hirr

theorem PathDegrees.exists_further {x : α} {r : List α} (hf : Followed E t x r) (hx : inV x) (hs : x ≠ s) :
    ∃ y, Followed E t y (x :: r) := by
  -- the edge that is not yet on the list
  have hnew : ∃ y, E x y ∧ r.head? ≠ some y ∧ ∀ c, E x c → c = y ∨ r.head? = some c := by
    cases r with
    | nil =>
      obtain ⟨y, hy, huniq⟩ := h.targetOne
      have hxt : x = t := Option.some.inj hf.last
      rw [hxt]
      exact ⟨y, hy, (Option.some_ne_none y).symm, fun c hc => .inl (huniq c hc)⟩
    | cons x' r =>
      have hxx' : E x x' := (isChain_cons_cons.1 hf.chain).1
      have hxt : x ≠ t := by
        rintro rfl
        have hlast := hf.last
        rw [List.getLast?_cons_cons] at hlast
        exact (nodup_cons.1 hf.nodup).1 (mem_of_getLast? hlast)
      obtain ⟨a, b, hab, ha, hb, hall⟩ := h.innerTwo x hx hs hxt
      rcases hall x' hxx' with rfl | rfl
      · exact ⟨b, hb, fun heq => hab (Option.some.inj heq), fun c hc => (hall c hc).symm.imp id fun h => by rw [h]; rfl⟩
      · exact ⟨a, ha, fun heq => hab (Option.some.inj heq).symm, fun c hc => (hall c hc).imp id fun h => by rw [h]; rfl⟩
  obtain ⟨y, hy, hne, hall⟩ := hnew
  have hxr := (nodup_cons.1 hf.nodup).1
  have hynot : y ∉ x :: r := by
    intro hmem
    rcases mem_cons.1 hmem with rfl | hmem
    · exact hirr y hy
    · rcases hf.known y hmem x (hsymm x y hy) with hnext | hnext
      · exact hxr hnext.mem_tail
      · exact hne (first_of_next hxr hnext)
  refine ⟨y, nodup_cons.2 ⟨hynot, hf.nodup⟩, ?_, isChain_cons_cons.2 ⟨hsymm x y hy, hf.chain⟩, ?_⟩
  · rw [List.getLast?_cons_cons]
    exact hf.last
  · intro z hz c hc
    rcases mem_cons.1 hz with rfl | hz
    · rcases hall c hc with rfl | hfirst
      · exact .inr (next_first rfl)
      · exact .inl (next_first hfirst).cons
    · exact (hf.known z hz c hc).imp Next.cons Next.cons

theorem PathDegrees.exists_followed {l : List α} (hl : ∀ v, inV v → v ∈ l) (k : ℕ) {x : α} {r : List α}
    (hf : Followed E t x r) (hV : ∀ v ∈ x :: r, inV v) (hk : l.length ≤ (x :: r).length + k) :
    ∃ r', Followed E t s r' := by
  induction k generalizing x r with
  | zero =>
    by_cases hs : x = s
    · exact ⟨r, hs ▸ hf⟩
    · obtain ⟨y, hy⟩ := h.exists_further hsymm hirr hf (hV x mem_cons_self) hs
      have hyV : inV y := (h.ends y x (isChain_cons_cons.1 hy.chain).1).1
      have hsub : (y :: x :: r) ⊆ l := by
        intro v hv
        rcases mem_cons.1 hv with rfl | hv
        · exact hl v hyV
        · exact hl v (hV v hv)
      have hlen := (subperm_of_subset hy.nodup hsub).length_le
      rw [length_cons] at hlen
      omega
  | succ k ih =>
    by_cases hs : x = s
    · exact ⟨r, hs ▸ hf⟩
    · obtain ⟨y, hy⟩ := h.exists_further hsymm hirr hf (hV x mem_cons_self) hs
      have hyV : inV y := (h.ends y x (isChain_cons_cons.1 hy.chain).1).1
      refine ih hy ?_ ?_
      · intro v hv
        rcases mem_cons.1 hv with rfl | hv
        · exact hyV
        · exact hV v hv
      · rw [length_cons]
        omega

theorem PathDegrees.exists_path (hst : s ≠ t) {l : List α} (hl : ∀ v, inV v → v ∈ l) : ∃ p, IsUPath inV E s t p := by
  have hone : Followed E t t [] :=
    ⟨nodup_singleton t, rfl, isChain_singleton t, fun z hz => absurd hz not_mem_nil⟩
  obtain ⟨r, hf⟩ := h.exists_followed hsymm hirr hl l.length hone
    (fun v hv => (mem_singleton.1 hv) ▸ h.target) (Nat.le_add_left _ _)
  have hsr := (nodup_cons.1 hf.nodup).1
  -- the only edge of `s` leads to the second vertex
  have hknown : ∀ z ∈ s :: r, ∀ y, E z y → Next (s :: r) z y ∨ Next (s :: r) y z := by
    intro z hz y hy
    rcases mem_cons.1 hz with rfl | hz
    · obtain ⟨w, hw⟩ := @exists_next _ (z :: r) z mem_cons_self
        (fun heq => hst (Option.some.inj (heq.symm.trans hf.last)))
      rw [h.startOne.unique hy (rel_of_next hf.chain hw)]
      exact .inl hw
    · exact hf.known z hz y hy
  have hclosed : ∀ v, ReflTransGen E s v → v ∈ s :: r := by
    intro v hv
    induction hv with
    | refl => exact mem_cons_self
    | @tail u w _ huw ih => exact (hknown u ih w huw).elim Next.mem_right Next.mem_left
  refine ⟨s :: r, hf.nodup, rfl, hf.last, ?_, ?_⟩
  · intro v
    constructor
    · intro hv
      exact hclosed v (h.conn s v h.start hv)
    · intro hv
      rcases mem_cons.1 hv with rfl | hv
      · exact h.start
      · obtain ⟨u, hu⟩ := exists_prev (z := s) hv
        exact (h.ends u v (rel_of_next hf.chain hu)).2
  · intro u v
    constructor
    · intro huv
      exact hknown u (hclosed u (h.conn s u h.start (h.ends u v huv).1)) v huv
    · rintro (huv | hvu)
      · exact rel_of_next hf.chain huv
      · exact hsymm v u (rel_of_next hf.chain hvu)

end

/-! ## The degrees of a path -/

section
variable {p : List α} (h : IsUPath inV E s t p)
include h

theorem IsUPath.mem_first : s ∈ p := mem_of_head? h.first

theorem IsUPath.mem_last : t ∈ p := mem_of_getLast? h.last

theorem IsUPath.symm {u v : α} (huv : E u v) : E v u := (h.edge v u).2 ((h.edge u v).1 huv).symm

theorem IsUPath.reach (i : ℕ) {v : α} (hv : p[i]? = some v) : ReflTransGen E s v := by
  induction i generalizing v with
  | zero =>
    have hfirst := h.first
    rw [List.head?_eq_getElem?, hv, Option.some.injEq] at hfirst
    rw [hfirst]
  | succ i ih =>
    obtain ⟨hi, -⟩ := List.getElem?_eq_some_iff.1 hv
    have hu : p[i]? = some p[i] := List.getElem?_eq_getElem (by omega)
    exact (ih hu).tail ((h.edge _ v).2 (.inl ⟨i, hu, hv⟩))

theorem IsUPath.reach_symm {u v : α} (huv : ReflTransGen E u v) : ReflTransGen E v u := by
  induction huv with
  | refl => exact ReflTransGen.refl
  | tail _ huv ih => exact ReflTransGen.head (h.symm huv) ih

theorem IsUPath.prev_of {v : α} (hv : v ∈ p) (hs : v ≠ s) : ∃ u, Next p u v ∧ ∀ w, Next p w v → w = u := by
  have hnodup := h.nodup
  have hfirst := h.first
  cases p with
  | nil => exact absurd hv not_mem_nil
  | cons a q =>
    have hvq := (mem_cons.1 hv).resolve_left fun heq => hs (heq.trans (Option.some.inj hfirst))
    obtain ⟨u, hu⟩ := exists_prev (z := a) hvq
    exact ⟨u, hu, fun w hw => prev_unique (nodup_cons.1 hnodup).2 hw hu⟩

theorem IsUPath.next_of {v : α} (hv : v ∈ p) (ht : v ≠ t) : ∃ u, Next p v u ∧ ∀ w, Next p v w → w = u := by
  obtain ⟨u, hu⟩ := exists_next hv (fun heq => ht (Option.some.inj (heq.symm.trans h.last)))
  exact ⟨u, hu, fun w hw => next_unique h.nodup hw hu⟩

theorem IsUPath.not_prev_first {u : α} : ¬ Next p u s := by
  intro hp
  obtain ⟨i, -, hi⟩ := hp
  have hfirst := h.first
  rw [List.head?_eq_getElem?] at hfirst
  have := index_unique h.nodup hfirst hi
  omega

theorem IsUPath.not_next_last {u : α} : ¬ Next p t u := by
  intro hp
  obtain ⟨i, hi, hi'⟩ := hp
  have hlast := h.last
  rw [List.getLast?_eq_getElem?] at hlast
  have := index_unique h.nodup hlast hi
  obtain ⟨hlt, -⟩ := List.getElem?_eq_some_iff.1 hi'
  omega

theorem IsUPath.degrees (hst : s ≠ t) : PathDegrees inV E s t := by
  refine ⟨?_, (h.mem s).2 h.mem_first, (h.mem t).2 h.mem_last, ?_, ?_, ?_, ?_⟩
  · intro u v huv
    rw [h.mem u, h.mem v]
    rcases (h.edge u v).1 huv with hn | hn
    · exact ⟨hn.mem_left, hn.mem_right⟩
    · exact ⟨hn.mem_right, hn.mem_left⟩
  · obtain ⟨u, hu, huniq⟩ := h.next_of h.mem_first hst
    refine ⟨u, (h.edge s u).2 (.inl hu), ?_⟩
    intro w hw
    exact huniq w (((h.edge s w).1 hw).resolve_right h.not_prev_first)
  · obtain ⟨u, hu, huniq⟩ := h.prev_of h.mem_last hst.symm
    refine ⟨u, (h.edge t u).2 (.inr hu), ?_⟩
    intro w hw
    exact huniq w (((h.edge t w).1 hw).resolve_left h.not_next_last)
  · intro v hv hs ht
    obtain ⟨a, ha, hprev⟩ := h.prev_of ((h.mem v).1 hv) hs
    obtain ⟨b, hb, hnext⟩ := h.next_of ((h.mem v).1 hv) ht
    refine ⟨a, b, ?_, (h.edge v a).2 (.inr ha), (h.edge v b).2 (.inl hb), ?_⟩
    · rintro rfl
      obtain ⟨i, hia, hiv⟩ := ha
      obtain ⟨j, hjv, hja⟩ := hb
      have h1 := index_unique h.nodup hiv hjv
      have h2 := index_unique h.nodup hia hja
      omega
    · intro c hc
      rcases (h.edge v c).1 hc with hn | hn
      · exact .inr (hnext c hn)
      · exact .inl (hprev c hn)
  · have hreach : ∀ v, inV v → ReflTransGen E s v := by
      intro v hv
      obtain ⟨i, hi, rfl⟩ := getElem_of_mem ((h.mem v).1 hv)
      exact h.reach i (List.getElem?_eq_getElem hi)
    intro u v hu hv
    exact (h.reach_symm (hreach u hu)).trans (hreach v hv)

end

theorem isUPath_iff (hst : s ≠ t) (hsymm : ∀ u v, E u v → E v u) (hirr : ∀ v, ¬ E v v) {l : List α}
    (hl : ∀ v, inV v → v ∈ l) : (∃ p, IsUPath inV E s t p) ↔ PathDegrees inV E s t := by
  constructor
  · intro hboth
    obtain ⟨p, hp⟩ := hboth
    exact hp.degrees hst
  · intro h
    exact h.exists_path hsymm hirr hst hl

end Paths
