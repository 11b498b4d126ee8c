import Picat.Domain.Include

/-!
# Hall sets of `all_distinct`

A variable and the variables whose domains are subsets of its domain need different values out of that domain: when
they are as many as it has elements, no other variable can take one.

* `allDistinctCheckHallVar_preserves` : a call keeps every pairwise different assignment.
-/

namespace Picat

open Function List

/-! ## Full sets -/

section
variable {α β : Type*} [DecidableEq β] {ts : List α} {f : α → β} {p : α → Bool} {E : Finset β}

theorem card_image_filter (hdiff : (ts.map f).Nodup) :
    (((ts.filter p).map f).toFinset).card = (ts.filter p).length := by
  rw [toFinset_card_of_nodup (hdiff.sublist (filter_sublist.map f)), length_map]

theorem image_filter_subset (hin : ∀ t ∈ ts, p t = true → f t ∈ E) : ((ts.filter p).map f).toFinset ⊆ E := by
  intro v hv
  obtain ⟨t, ht, rfl⟩ := mem_map.1 (mem_toFinset.1 hv)
  exact hin t (mem_filter.1 ht).1 (mem_filter.1 ht).2

section
variable (hdiff : (ts.map f).Nodup) (hin : ∀ t ∈ ts, p t = true → f t ∈ E)
include hdiff hin

theorem card_le_of_nodup : (ts.filter p).length ≤ E.card := by
  rw [← card_image_filter hdiff]
  exact Finset.card_le_card (image_filter_subset hin)

theorem notMem_of_full (hfull : E.card ≤ (ts.filter p).length) {t : α} (ht : t ∈ ts) (hp : p t = false) : f t ∉ E := by
  intro hmem
  rw [← card_image_filter hdiff] at hfull
  rw [← Finset.eq_of_subset_of_card_le (image_filter_subset hin) hfull, mem_toFinset, mem_map] at hmem
  obtain ⟨u, hu, heq⟩ := hmem
  obtain ⟨hu, hpu⟩ := mem_filter.1 hu
  rw [inj_on_of_nodup_map hdiff hu ht heq, hp] at hpu
  contradiction

end

end

/-! ## Excluding a domain -/

/-- The search for the first common candidate of `exclude_dom_aux`. -/
def excludeStart (dx : Dvar) (last : ℤ) : ℕ → ℤ → Except Stop ℤ
  | 0, _ => .error .oob
  | fuel + 1, first =>
    if first ≤ last then do
      if ← dmTrue dx first then return first else excludeStart dx last fuel (first + 1)
    else return first

/-- The loop of `exclude_dom_aux` over the elements of `X`. -/
def excludeLoop (dx : Dvar) (last : ℤ) : ℕ → Dvar → ℤ → Except Stop Dvar
  | 0, _, _ => .error .oob
  | fuel + 1, dy, first => do
      let dy ← domainSetFalseAux dy first
      if first ≥ last then return dy
      else do
        let first ← nextElm dx first
        excludeLoop dx last fuel dy first

def excludeDomAux (dx dy : Dvar) : Except Stop Dvar :=
  if dx.first > dy.last ∨ dy.first > dx.last then .ok dy
  else
    let first := if dx.first > dy.first then dx.first else dy.first
    let last := if dx.last < dy.last then dx.last else dy.last
    do
      let first ← excludeStart dx last ((last - first).toNat + 2) first
      if first > last then return dy
      else excludeLoop dx last ((last - first).toNat + 1) dy first

section
variable {dx dy : Dvar} {v last : ℤ}

theorem excludeStart_spec (last : ℤ) (hx : dx.Shape) : ∀ (fuel : ℕ) (first : ℤ), 0 < fuel → last - first + 1 < fuel →
      ∃ e, excludeStart dx last fuel first = .ok e ∧ (last < e ∨ e ∈ dx.elems) := by
  intro fuel
  induction fuel with
  | zero =>
    intro first hpos
    omega
  | succ fuel ih =>
    intro first _ hlt
    unfold excludeStart
    by_cases hle : first ≤ last
    · rw [if_pos hle]
      simp only [dmTrue_eq hx, bind, Except.bind]
      by_cases hmem : first ∈ dx.elems
      · rw [if_pos (decide_eq_true hmem)]
        exact ⟨first, rfl, .inr hmem⟩
      · rw [if_neg (by simpa using hmem)]
        exact ih (first + 1) (by push_cast at hlt; omega) (by push_cast at hlt; omega)
    · rw [if_neg hle]
      exact ⟨first, rfl, .inl (by omega)⟩

theorem excludeLoop_keeps (hx : dx.Shape) (hv : v ∉ dx.elems) (hlast : last ≤ dx.last) :
    ∀ (fuel : ℕ) (dy : Dvar) (first : ℤ), 0 < fuel → last - first < fuel → first ∈ dx.elems → Keeps dy v →
      ∃ dy', excludeLoop dx last fuel dy first = .ok dy' ∧ Keeps dy' v := by
  intro fuel
  induction fuel with
  | zero =>
    intro dy first hpos
    omega
  | succ fuel ih =>
    intro dy first _ hlt hmem hk
    have hne : v ≠ first := fun h => hv (h ▸ hmem)
    obtain ⟨dy', hdy', hk', -⟩ := hk.setFalseAux hne
    simp only [excludeLoop, hdy', bind, Except.bind]
    by_cases hend : first ≥ last
    · rw [if_pos hend]
      exact ⟨dy', rfl, hk'⟩
    · rw [if_neg hend]
      have hfirst := (Dvar.mem_elems.1 hmem).1.1
      obtain ⟨e, he, hin, hel⟩ := nextElm_eq hx (show dx.first ≤ first + 1 by omega) (show first < dx.last by omega)
      have hge := hin.le
      simp only [he]
      exact ih dy' e (by push_cast at hlt; omega) (by push_cast at hlt; omega)
        (Dvar.mem_elems.2 ⟨⟨by omega, hel⟩, hin.mem⟩) hk'

theorem excludeDomAux_keeps (hx : dx.Shape) (hv : v ∉ dx.elems) (hk : Keeps dy v) :
    ∃ dy', excludeDomAux dx dy = .ok dy' ∧ Keeps dy' v := by
  unfold excludeDomAux
  by_cases hapart : dx.first > dy.last ∨ dy.first > dx.last
  · rw [if_pos hapart]
    exact ⟨dy, rfl, hk⟩
  · rw [if_neg hapart]
    extract_lets first last
    have hlast : last ≤ dx.last := by
      simp only [last]
      split_ifs <;> omega
    obtain ⟨e, he, hmem⟩ := excludeStart_spec last hx ((last - first).toNat + 2) first (by omega)
      (by push_cast; omega)
    simp only [he, bind, Except.bind]
    by_cases hend : e > last
    · rw [if_pos hend]
      exact ⟨dy, rfl, hk⟩
    · rw [if_neg hend]
      exact excludeLoop_keeps hx hv hlast ((last - e).toNat + 1) dy e (by omega) (by push_cast; omega)
        (hmem.resolve_left (by omega)) hk

end

/-! ## The two passes -/

/-- The variables of the first pass: the count, `NumElmsLeft`, and the words from `curr_fence` on, whether they are
other than zero. -/
structure HallCount where
  count : ℤ
  left : ℤ
  flags : ℤ → Bool

/-- `FOLLOW(flag_ptr+NumElmsLeft) = b`, with the count. -/
def HallCount.flag (c : HallCount) (b : Bool) : Except Stop HallCount :=
  if c.left < 0 then .error .oob
  else .ok { c with count := if b then c.count + 1 else c.count, flags := update c.flags c.left b }

def hallCountElm (s : Store) (dx : Dvar) (t : FdTerm) (c : HallCount) : Except Stop HallCount :=
  match deref s t with
  | .int _ => .ok c
  | .dvar q => do
      let b ← domainInclude dx (s q)
      c.flag b

/-- The loop after `start_count`, over both lists; `none` when no Hall set is possible any more. -/
def hallCount (s : Store) (dx : Dvar) (size : ℤ) : List FdTerm → HallCount → Except Stop (Option HallCount)
  | [], c => .ok (some c)
  | t :: ts, c =>
    if c.count + c.left < size then .ok none
    else do
      let c ← hallCountElm s dx t c
      hallCount s dx size ts { c with left := c.left - 1 }

/-- The loop after `start_exclude`, over both lists. -/
def hallExclude (x : ℕ) (flags : ℤ → Bool) : List FdTerm → ℤ → Store → Except Stop Store
  | [], _, s => .ok s
  | t :: ts, left, s => do
      let s ← match deref s t with
        | .int _ => pure s
        | .dvar q => if flags left then pure s else updateM s q (excludeDomAux (s x))
      hallExclude x flags ts (left - 1) s

/-- `b_ALLDISTINCT_CHECK_HALL_VAR_cccc`; `area` is what the free area holds at first. -/
def allDistinctCheckHallVar (area : ℤ → Bool) (s : Store) (X : FdTerm) (numElmsLeft : ℤ) (L R : List FdTerm) :
    Except Stop Store :=
  match deref s X with
  | .int _ => .ok s
  | .dvar x => do
      let size := (s x).size
      match ← hallCount s (s x) size (L ++ R) ⟨1, numElmsLeft, area⟩ with
      | none => return s
      | some c =>
        if c.count > size then .error .fail
        else if c.count < size then return s
        else hallExclude x c.flags (L ++ R) numElmsLeft s

/-- The pass counts `t`: a free variable whose domain is included in that of `X`. -/
def Counted (s : Store) (dx : Dvar) (t : FdTerm) : Bool :=
  match deref s t with
  | .int _ => false
  | .dvar q =>
    match domainInclude dx (s q) with
    | .ok b => b
    | .error _ => false

variable {t : FdTerm} {q : ℕ}

section
variable {s : Store} {dx : Dvar} {size : ℤ}

theorem hallCountElm_spec {c : HallCount} (hleft : 0 ≤ c.left)
    (hincl : ∀ q, deref s t = .dvar q → ∃ b, domainInclude dx (s q) = .ok b) :
    ∃ c', hallCountElm s dx t c = .ok c' ∧ c'.left = c.left ∧ c'.count = c.count + (if Counted s dx t then 1 else 0) ∧
      (c'.flags c.left = false → Counted s dx t = false) ∧ ∀ k, c.left < k → c'.flags k = c.flags k := by
  unfold hallCountElm Counted
  cases ht : deref s t with
  | int v => exact ⟨c, rfl, rfl, by simp, fun _ => rfl, fun _ _ => rfl⟩
  | dvar q =>
    obtain ⟨b, hb⟩ := hincl q ht
    simp only [hb, bind, Except.bind, HallCount.flag, if_neg (not_lt.2 hleft)]
    refine ⟨_, rfl, rfl, ?_, fun h => ?_, fun k hk => ?_⟩
    · cases b <;> simp
    · change update c.flags c.left b c.left = false at h
      rwa [update_self] at h
    · exact update_of_ne hk.ne' _ _

/-- The pass counts the included variables, and each element that keeps a zero flag is not one of them. -/
theorem hallCount_spec (s : Store) (dx : Dvar) (size : ℤ) (ts : List FdTerm) :
    ∀ c : HallCount, (ts.length : ℤ) ≤ c.left + 1 →
      (∀ t ∈ ts, ∀ q, deref s t = .dvar q → ∃ b, domainInclude dx (s q) = .ok b) →
      ∃ o, hallCount s dx size ts c = .ok o ∧ ∀ c', o = some c' →
        c'.count = c.count + (ts.filter (Counted s dx)).length ∧
        (∀ (i : ℕ) (t : FdTerm), ts[i]? = some t → c'.flags (c.left - i) = false → Counted s dx t = false) ∧
        ∀ k, c.left < k → c'.flags k = c.flags k := by
  induction ts with
  | nil =>
    intro c _ _
    refine ⟨some c, rfl, ?_⟩
    rintro c' ⟨⟩
    exact ⟨by simp, fun i t ht => by simp at ht, fun _ _ => rfl⟩
  | cons t ts ih =>
    intro c hlen hincl
    rw [length_cons] at hlen
    push_cast at hlen
    unfold hallCount
    by_cases hearly : c.count + c.left < size
    · rw [if_pos hearly]
      exact ⟨none, rfl, fun c' h => by contradiction⟩
    rw [if_neg hearly]
    obtain ⟨c₁, hc₁, hleft, hcount, hflag, hkeep⟩ := hallCountElm_spec (c := c) (by omega)
      (hincl t mem_cons_self)
    obtain ⟨o, ho, hspec⟩ := ih { c₁ with left := c₁.left - 1 } (show (ts.length : ℤ) ≤ c₁.left - 1 + 1 by omega)
      fun u hu => hincl u (mem_cons_of_mem _ hu)
    refine ⟨o, by simp only [hc₁, bind, Except.bind, ho], fun c' hc' => ?_⟩
    obtain ⟨hcount', hflag', hkeep'⟩ := hspec c' hc'
    change c'.count = c₁.count + _ at hcount'
    change ∀ k, c₁.left - 1 < k → _ at hkeep'
    refine ⟨?_, fun i u hu hzero => ?_, fun k hk => ?_⟩
    · rw [hcount', hcount, filter_cons]
      split_ifs with hc
      · rw [length_cons]
        push_cast
        ring
      · rw [add_zero]
    · cases i with
      | zero =>
        obtain rfl : t = u := by simpa using hu
        rw [Nat.cast_zero, sub_zero, hkeep' c.left (by omega)] at hzero
        exact hflag hzero
      | succ i =>
        apply hflag' i u (by simpa using hu)
        change c'.flags (c₁.left - 1 - i) = false
        rw [hleft, show c.left - 1 - (i : ℤ) = c.left - ((i + 1 : ℕ) : ℤ) by push_cast; ring]
        exact hzero
    · rw [hkeep' k (by omega), hkeep k hk]

end

/-! ## A call keeps every assignment -/

/-- A pairwise different assignment within the domains. -/
structure DistinctSolution (s : Store) (ts : List FdTerm) (sol : ℕ → ℤ) : Prop where
  mem : ∀ q, .dvar q ∈ ts → sol q ∈ (s q).dom
  distinct : (ts.map (FdTerm.val sol)).Nodup

def FreeIn (s : Store) (ts : List FdTerm) (q : ℕ) : Prop := .dvar q ∈ ts ∧ (s q).var = .susp

section
variable {s : Store} {ts : List FdTerm} {sol : ℕ → ℤ} {x : ℕ}

theorem eq_of_deref (h : deref s t = .dvar q) : t = .dvar q := by
  unfold deref at h
  cases t with
  | int v => contradiction
  | dvar r =>
    simp only at h
    split at h
    · contradiction
    · exact h

theorem deref_dvar (hinv : ∀ q, .dvar q ∈ ts → (s q).Inv) (ht : t ∈ ts)
    (h : deref s t = .dvar q) : t = .dvar q ∧ FreeIn s ts q := by
  obtain rfl := eq_of_deref h
  refine ⟨rfl, ht, ?_⟩
  cases hq : (s q).var with
  | int v => simp [deref, hq] at h
  | ref p => exact absurd hq ((hinv q ht).not_ref p)
  | susp => rfl

theorem freeIn_kept (hinv : ∀ q, .dvar q ∈ ts → (s q).Inv) (hmem : ∀ q, .dvar q ∈ ts → sol q ∈ (s q).dom) :
    Kept (FreeIn s ts) sol s s := by
  refine ⟨fun q hq => ?_, fun _ _ => rfl⟩
  have hi := hinv q hq.1
  have hin := hmem q hq.1
  rw [Dvar.dom_susp hq.2] at hin
  exact ⟨hi.shape, (hi.exact hq.2).enough, hin, fun w hw => by rw [hq.2] at hw; contradiction⟩

theorem DistinctSolution.kept (h : DistinctSolution s ts sol) (hinv : ∀ q, .dvar q ∈ ts → (s q).Inv) :
    Kept (FreeIn s ts) sol s s := freeIn_kept hinv h.mem

/-- What an argument is after some steps: the integer it has in the assignment, or a variable that is still free. -/
theorem Kept.deref_cases {s' : Store} (hk : Kept (FreeIn s ts) sol s s') (hinv : ∀ q, .dvar q ∈ ts → (s q).Inv)
    (hmem : ∀ q, .dvar q ∈ ts → sol q ∈ (s q).dom) (ht : t ∈ ts) :
    (∃ v, deref s' t = .int v ∧ t.val sol = v) ∨
      ∃ r, t = .dvar r ∧ deref s' t = .dvar r ∧ FreeIn s ts r ∧ Keeps (s' r) (sol r) := by
  cases t with
  | int v => exact .inl ⟨v, rfl, rfl⟩
  | dvar r =>
    by_cases hfree : FreeIn s ts r
    · have hkeep := hk.keeps r hfree
      cases hv : (s' r).var with
      | int v => exact .inl ⟨v, by simp only [deref, hv], (hkeep.bound v hv).symm⟩
      | susp => exact .inr ⟨r, rfl, by simp only [deref, hv], hfree, hkeep⟩
      | ref p => exact .inr ⟨r, rfl, by simp only [deref, hv], hfree, hkeep⟩
    · cases hv : (s r).var with
      | int v =>
        have hin := hmem r ht
        rw [Dvar.dom_int hv, Finset.mem_singleton] at hin
        exact .inl ⟨v, by simp only [deref, hk.off r hfree, hv], hin⟩
      | susp => exact absurd ⟨ht, hv⟩ hfree
      | ref p => exact absurd hv ((hinv r ht).not_ref p)

theorem updateM_of_ne {s' : Store} {g : Dvar → Except Stop Dvar} (h : updateM s q g = .ok s') (hne : x ≠ q) :
    s' x = s x := by
  unfold updateM at h
  split at h
  · rw [← Except.ok.inj h]
    exact update_of_ne hne _ _
  · contradiction

/-- The second pass excludes the domain of `X` from variables that have no value of `sol` in it. -/
theorem hallExclude_kept (flags : ℤ → Bool) (hinv : ∀ q, .dvar q ∈ ts → (s q).Inv) (hx : (s x).Shape)
    (hxmem : sol x ∈ (s x).elems) :
    ∀ (us : List FdTerm) (left : ℤ) (s' : Store), (∀ t ∈ us, t ∈ ts) →
      (∀ (i : ℕ) (t : FdTerm), us[i]? = some t → flags (left - i) = false → t.val sol ∉ (s x).elems) →
      s' x = s x → Kept (FreeIn s ts) sol s s' →
      ∃ s'', hallExclude x flags us left s' = .ok s'' ∧ Kept (FreeIn s ts) sol s s'' := by
  intro us
  induction us with
  | nil => exact fun left s' _ _ _ hk => ⟨s', rfl, hk⟩
  | cons t us ih =>
    intro left s' hsub hout hsx hk
    have hsub' : ∀ t ∈ us, t ∈ ts := fun u hu => hsub u (mem_cons_of_mem _ hu)
    have hout' : ∀ (i : ℕ) (u : FdTerm), us[i]? = some u → flags (left - 1 - i) = false → u.val sol ∉ (s x).elems := by
      intro i u hu hzero
      apply hout (i + 1) u (by simpa using hu)
      rwa [show left - ((i + 1 : ℕ) : ℤ) = left - 1 - i by push_cast; ring]
    unfold hallExclude
    cases ht : deref s' t with
    | int v => exact ih (left - 1) s' hsub' hout' hsx hk
    | dvar q =>
      by_cases hflag : flags left = true
      · simp only [hflag, if_true]
        exact ih (left - 1) s' hsub' hout' hsx hk
      · have hval : t.val sol ∉ (s x).elems := hout 0 t (by simp) (by simpa using hflag)
        obtain rfl := eq_of_deref ht
        have hfree : FreeIn s ts q := by
          by_contra hno
          have heq : deref s' (.dvar q) = deref s (.dvar q) := by
            simp only [deref, hk.off q hno]
          exact hno (deref_dvar hinv (hsub _ mem_cons_self) (heq ▸ ht)).2
        have hqx : x ≠ q := fun h => hval (h ▸ hxmem)
        obtain ⟨s₁, hs₁, hk₁⟩ := hk.updateM hfree (excludeDomAux_keeps hx hval (hk.keeps q hfree))
        have hs₁x : s₁ x = s x := by
          rw [updateM_of_ne hs₁ hqx, hsx]
        simp only [if_neg hflag, hsx, hs₁, bind, Except.bind]
        exact ih (left - 1) s₁ hsub' hout' hs₁x hk₁

theorem val_mem_of_counted (hinv : ∀ q, .dvar q ∈ ts → (s q).Inv) (hsol : DistinctSolution s ts sol)
    (hx : (s x).Inv) (ht : t ∈ ts) (hcount : Counted s (s x) t = true) : t.val sol ∈ (s x).elems := by
  unfold Counted at hcount
  cases hd : deref s t with
  | int v => simp [hd] at hcount
  | dvar q =>
    obtain ⟨rfl, hfree⟩ := deref_dvar hinv ht hd
    obtain ⟨b, hb, hiff⟩ := domainInclude_spec hx (hinv q ht)
    simp only [hd, hb] at hcount
    have hmem := hsol.mem q ht
    rw [Dvar.dom_susp hfree.2] at hmem
    exact hiff.1 hcount hmem

/-- When the lists have no more elements than `NumElmsLeft` says, a call succeeds and keeps, in every domain, the value of
every pairwise different assignment. -/
theorem allDistinctCheckHallVar_preserves (area : ℤ → Bool) (s : Store) (X : FdTerm) (numElmsLeft : ℤ)
    (L R : List FdTerm) (hlen : (L.length + R.length : ℤ) ≤ numElmsLeft)
    (hinv : ∀ q, .dvar q ∈ X :: (L ++ R) → (s q).Inv) (sol : ℕ → ℤ) (hsol : DistinctSolution s (X :: (L ++ R)) sol) :
    ∃ s', allDistinctCheckHallVar area s X numElmsLeft L R = .ok s' ∧ Preserves sol s s' := by
  unfold allDistinctCheckHallVar
  cases hX : deref s X with
  | int v => exact ⟨s, rfl, fun _ h => h⟩
  | dvar x =>
    obtain ⟨rfl, hfree⟩ := deref_dvar hinv mem_cons_self hX
    have hx := hinv x mem_cons_self
    have hself : Counted s (s x) (.dvar x) = true := by
      obtain ⟨b, hb, hiff⟩ := domainInclude_spec hx hx
      simp only [Counted, hX, hb]
      exact hiff.2 subset_rfl
    have hin : ∀ t ∈ FdTerm.dvar x :: (L ++ R), Counted s (s x) t = true → t.val sol ∈ (s x).elems :=
      fun t ht => val_mem_of_counted hinv hsol hx ht
    have hsize := hx.size_eq
    have hle := card_le_of_nodup hsol.distinct hin
    have hroom : ((L ++ R).length : ℤ) ≤ numElmsLeft + 1 := by
      rw [length_append]
      push_cast
      omega
    obtain ⟨o, ho, hspec⟩ := hallCount_spec s (s x) (s x).size (L ++ R) ⟨1, numElmsLeft, area⟩ hroom fun t ht q hd => by
      obtain ⟨rfl, -⟩ := deref_dvar hinv (mem_cons_of_mem _ ht) hd
      obtain ⟨b, hb, -⟩ := domainInclude_spec hx (hinv q (mem_cons_of_mem _ ht))
      exact ⟨b, hb⟩
    simp only [ho, bind, Except.bind]
    cases o with
    | none => exact ⟨s, rfl, fun _ h => h⟩
    | some c =>
      obtain ⟨hcount, hflags, -⟩ := hspec c rfl
      change c.count = 1 + _ at hcount
      rw [filter_cons, if_pos hself, length_cons] at hle
      simp only
      rw [if_neg (by omega)]
      by_cases hless : c.count < (s x).size
      · rw [if_pos hless]
        exact ⟨s, rfl, fun _ h => h⟩
      · rw [if_neg hless]
        have hxmem : sol x ∈ (s x).elems := hin _ mem_cons_self hself
        have hout : ∀ (i : ℕ) (t : FdTerm), (L ++ R)[i]? = some t → c.flags (numElmsLeft - i) = false →
            t.val sol ∉ (s x).elems := by
          intro i t ht hzero
          refine notMem_of_full hsol.distinct hin ?_ (mem_cons_of_mem _ (mem_of_getElem? ht))
            (hflags i t ht hzero)
          rw [filter_cons, if_pos hself, length_cons]
          omega
        obtain ⟨s', hs', hk⟩ := hallExclude_kept c.flags hinv hx.shape hxmem (L ++ R) numElmsLeft s
          (fun t => mem_cons_of_mem _) hout rfl (hsol.kept hinv)
        exact ⟨s', hs', hk.preserves⟩

end

def hallStore : Store := fun r => if r = 2 then auxCreateDomainVar 1 3 else auxCreateDomainVar 1 2

theorem allDistinctCheckHallVar_hallStore :
    ∃ s', allDistinctCheckHallVar (fun _ => false) hallStore (.dvar 0) 2 [.dvar 1] [.dvar 2] = .ok s' ∧
      Preserves (fun r => r + 1) hallStore s' := by
  have hinv : ∀ q, (hallStore q).Inv := by
    intro q
    unfold hallStore
    split_ifs <;> exact auxCreateDomainVar_inv (by decide)
  refine allDistinctCheckHallVar_preserves _ _ _ _ _ _ (by decide) (fun q _ => hinv q) _ ⟨fun q hq => ?_, by decide⟩
  simp only [cons_append, nil_append, mem_cons, FdTerm.dvar.injEq, not_mem_nil, or_false] at hq
  rcases hq with rfl | rfl | rfl
  · rw [Dvar.dom_susp rfl, Dvar.mem_elems]
    decide
  · rw [Dvar.dom_susp rfl, Dvar.mem_elems]
    decide
  · rw [Dvar.dom_susp rfl, Dvar.mem_elems]
    decide

end Picat
