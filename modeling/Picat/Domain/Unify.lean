import Picat.Domain.Invariant

/-!
# Unifying two domain variables

`unify_dvar_dvar` of `unify.c`: the four combinations of interval and bit vector, the search for the common bounds of
two vectors, and the merging of the two variables into a clone.

* `UnifyStray` : the inputs on which the call reads outside of a vector or miscounts; `unifyDvarDvar_iff` : on all
  others, and on no others, it computes the intersection.
-/

namespace Picat

open BitScan Finset

/-! ## The source -/

/-- The loop of `exclude_dom_comp_aux`, for the elements of `y` still to be seen. -/
def excludeDomCompLoop (dx : Dvar) : ℕ → Dvar → ℤ → Except Stop Dvar
  | 0, dy, _ => .ok dy
  | k + 1, dy, first => do
      if ← dmTrue dx first then excludeDomCompLoop dx k dy (first + 1)
      else do
        let dy ← domainSetFalseAux dy first
        excludeDomCompLoop dx k dy (first + 1)

/-- `exclude_dom_comp_aux`: for each element of `dy`, if it is not included in `dx` then exclude it. -/
def excludeDomCompAux (dx dy : Dvar) : Except Stop Dvar :=
  excludeDomCompLoop dx (dy.last + 1 - dy.first).toNat dy dy.first

/-- The first loop over two vectors, "find first that is in both domains". Each round moves `first` up, so `last - first`
rounds are all there can be. -/
def unifyFirst (d1 d2 : Dvar) (last : ℤ) : ℕ → ℤ → Except Stop ℤ
  | 0, first => .ok first
  | k + 1, first =>
    if first < last then do
      let first ← domainNextBv d1 first
      let elm ← domainNextBv d2 first
      if elm ≠ first then unifyFirst d1 d2 last k elm else return first
    else
      return first

def unifyLast (d1 d2 : Dvar) (first : ℤ) : ℕ → ℤ → Except Stop ℤ
  | 0, last => .ok last
  | k + 1, last =>
    if first < last then do
      let last ← domainPrevBv d1 last
      let elm ← domainPrevBv d2 last
      if elm ≠ last then unifyLast d1 d2 first k elm else return last
    else
      return last

def unifyUpdateFirstLastSize (d : Dvar) (first last size : ℤ) : Dvar :=
  if d.first ≠ first then
    if d.last ≠ last then updateFirstLastSize d first last size else updateFirstSize d first size
  else if d.last ≠ last then updateLastSize d last size
  else d

/-- `dm_clone`: the constraint lists are not copied, and the vector is shared. -/
def dmClone (d : Dvar) : Dvar := { d with var := .susp, outerDomCs := false }

/-- `bind_susp_susp(top, d)`: `d` points to `top` and its constraint lists are merged into those of `top`. -/
def bindSuspSusp (top : Dvar) (p : ℕ) (d : Dvar) : Dvar × Dvar :=
  ({ top with outerDomCs := top.outerDomCs || d.outerDomCs }, { d with var := .ref p })

/-- The end of every branch that leaves a variable: both point to the clone at `p`. -/
def mergeInto (source : Dvar) (p : ℕ) (d1 d2 : Dvar) : Dvar × Dvar × Option Dvar :=
  let top := dmClone source
  let (top, d1) := bindSuspSusp top p d1
  let (top, d2) := bindSuspSusp top p d2
  (d1, d2, some top)

def bvdvarBvdvar (p1 p2 p : ℕ) (d1 d2 : Dvar) (first last : ℤ) : Except Stop (Dvar × Dvar × Option Dvar) := do
  let first ← unifyFirst d1 d2 last (last - first).toNat first
  let last ← unifyLast d1 d2 first (last - first).toNat last
  if first > last then
    .error .fail
  else if last = first then do
    if ← dmTrue d1 first then
      if ← dmTrue d2 first then return (assignDvar d1 first, assignDvar d2 first, none) else .error .fail
    else
      .error .fail
  else do
    let d2 ← excludeDomCompAux d1 d2
    let d1 ← excludeDomCompAux d2 d1
    let count ← countDomainElms d2 first last
    let d1 := unifyUpdateFirstLastSize d1 first last count
    let d2 := unifyUpdateFirstLastSize d2 first last count
    return mergeInto (if p1 < p2 then d1 else d2) p d1 d2

/-- The exclusions that a branch with an interval makes for the constraints on outer elements. -/
def excludeOuter (dx dy : Dvar) : Except Stop Dvar := if dy.outerDomCs then excludeDomCompAux dx dy else .ok dy

def itdvarItdvar (p1 p2 p : ℕ) (d1 d2 : Dvar) (first last : ℤ) : Except Stop (Dvar × Dvar × Option Dvar) :=
  if last = first then
    return (assignDvar d1 first, assignDvar d2 first, none)
  else do
    let d1 ← excludeOuter d2 d1
    let d2 ← excludeOuter d1 d2
    let count := last - first + 1
    let d1 := unifyUpdateFirstLastSize d1 first last count
    let d2 := unifyUpdateFirstLastSize d2 first last count
    return mergeInto (if p1 < p2 then d1 else d2) p d1 d2

def itdvarBvdvar (p : ℕ) (d1 d2 : Dvar) (first last : ℤ) : Except Stop (Dvar × Dvar × Option Dvar) := do
  let first ← domainNextBv d2 first
  let last ← domainPrevBv d2 last
  if first > last then
    .error .fail
  else if last = first then
    return (assignDvar d1 first, assignDvar d2 first, none)
  else do
    let d1 ← excludeOuter d2 d1
    let d2 ← excludeOuter d1 d2
    let count ← countDomainElms d2 first last
    let d2 := unifyUpdateFirstLastSize d2 first last count
    let d1 := unifyUpdateFirstLastSize d1 first last count
    return mergeInto d2 p d1 d2

/-- `unify_dvar_dvar` on the variables at `p1` and `p2`, with the heap top at `p`: the two variables afterwards, and the
clone when one is made. -/
def unifyDvarDvar (p1 p2 p : ℕ) (d1 d2 : Dvar) : Except Stop (Dvar × Dvar × Option Dvar) :=
  let first := if d1.first ≥ d2.first then d1.first else d2.first
  let last := if d1.last ≤ d2.last then d1.last else d2.last
  if first > last then
    .error .fail
  else if d1.type = .it then
    if d2.type = .it then itdvarItdvar p1 p2 p d1 d2 first last
    else itdvarBvdvar p d1 d2 first last
  else if d2.type = .it then do
    -- the two variables change places
    let (d2, d1, top) ← itdvarBvdvar p d2 d1 first last
    return (d1, d2, top)
  else
    bvdvarBvdvar p1 p2 p d1 d2 first last

variable {m : ℤ} {p : ℕ}

section
variable {d d' d1 d2 dx dy : Dvar} {b b1 b2 : BitVector} {first last x e : ℤ} {S : Finset ℤ}

/-! ## Excluding what is not in the other domain -/

/-- `d` went to `d'`, a free variable with the set `S` and an exact size. -/
structure NarrowedTo (d : Dvar) (S : Finset ℤ) (d' : Dvar) : Prop where
  susp : d'.var = .susp
  outerDomCs : d'.outerDomCs = d.outerDomCs
  range : d.type.SameRange d'.type
  shape : d'.Shape
  exact : d'.Exact
  elems : d'.elems = S

theorem NarrowedTo.refl (hv : d.var = .susp) (h : d.Shape) (hex : d.Exact) : NarrowedTo d d.elems d :=
  ⟨hv, rfl, .refl _, h, hex, rfl⟩

theorem NarrowedTo.trans {T : Finset ℤ} {d'' : Dvar} (h : NarrowedTo d S d') (h' : NarrowedTo d' T d'') :
    NarrowedTo d T d'' :=
  ⟨h'.susp, h'.outerDomCs.trans h.outerDomCs, h.range.trans h'.range, h'.shape, h'.exact, h'.elems⟩

theorem Narrowed.narrowedTo (h : Narrowed d S True d') (hv : d.var = .susp) (hex : d.Exact) (hS : 2 ≤ S.card) :
    NarrowedTo d S d' := by
  cases h with
  | updated hvar hcs hrange hshape helems henough hexact =>
    exact ⟨hvar.trans hv, hcs, hrange, hshape, (hexact hex).1 trivial, helems⟩
  | assigned hsingle _ =>
    rw [hsingle, card_singleton] at hS
    omega

theorem domainSetFalseAux_narrowedTo (hv : d.var = .susp) (h : d.Shape) (hex : d.Exact)
    (hS : 2 ≤ (d.elems.erase e).card) :
    ∃ d', domainSetFalseAux d e = .ok d' ∧ NarrowedTo d (d.elems.erase e) d' := by
  obtain ⟨d', hr, hd'⟩ := domainSetFalseNoint_narrowed h hex.enough (Finset.card_pos.1 (lt_of_lt_of_le Nat.zero_lt_two hS))
  refine ⟨d', ?_, hd'.narrowedTo hv hex hS⟩
  simpa only [domainSetFalseAux, hv] using hr

theorem excludeDomCompLoop_eq (hx : dx.Shape) : ∀ (k : ℕ) (dy : Dvar) (first : ℤ), dy.var = .susp → dy.Shape →
    dy.Exact → 2 ≤ (dx.elems ∩ dy.elems).card →
    ∃ d', excludeDomCompLoop dx k dy first = .ok d' ∧
      NarrowedTo dy (dy.elems.filter fun z => first ≤ z ∧ z < first + k → z ∈ dx.elems) d' := by
  intro k
  induction k with
  | zero =>
    intro dy first hv h hex _
    refine ⟨dy, rfl, ?_⟩
    rw [filter_true_of_mem fun z _ hz => by push_cast at hz; omega]
    exact .refl hv h hex
  | succ k ih =>
    intro dy first hv h hex hcard
    unfold excludeDomCompLoop
    simp only [dmTrue_eq hx, bind, Except.bind]
    by_cases hin : first ∈ dx.elems
    · rw [decide_eq_true hin, if_pos rfl]
      obtain ⟨d', hloop, hd'⟩ := ih dy (first + 1) hv h hex hcard
      refine ⟨d', hloop, ?_⟩
      rwa [filter_congr (q := fun z => first + 1 ≤ z ∧ z < first + 1 + k → z ∈ dx.elems) fun z _ => ?_]
      refine ⟨fun hz hz' => hz (by push_cast; omega), fun hz hz' => ?_⟩
      by_cases hzf : z = first
      · exact hzf ▸ hin
      · exact hz (by push_cast at hz'; omega)
    · rw [decide_eq_false hin, if_neg (by simp)]
      have hsub : dx.elems ∩ dy.elems ⊆ dy.elems.erase first := fun z hz => by
        obtain ⟨hzx, hzy⟩ := mem_inter.1 hz
        exact Finset.mem_erase.2 ⟨fun hzf => hin (hzf ▸ hzx), hzy⟩
      obtain ⟨d₁, hfalse, hd₁⟩ := domainSetFalseAux_narrowedTo hv h hex (hcard.trans (card_le_card hsub))
      have hinter : dx.elems ∩ d₁.elems = dx.elems ∩ dy.elems := by
        rw [hd₁.elems]
        apply Finset.Subset.antisymm (inter_subset_inter_left (erase_subset _ _))
        intro z hz
        exact mem_inter.2 ⟨(mem_inter.1 hz).1, hsub hz⟩
      obtain ⟨d', hloop, hd'⟩ := ih d₁ (first + 1) hd₁.susp hd₁.shape hd₁.exact (by rwa [hinter])
      refine ⟨d', by simp only [hfalse]; exact hloop, ?_⟩
      have hset : dy.elems.filter (fun z => first ≤ z ∧ z < first + (k + 1 : ℕ) → z ∈ dx.elems) =
          d₁.elems.filter (fun z => first + 1 ≤ z ∧ z < first + 1 + k → z ∈ dx.elems) := by
        ext z
        simp only [hd₁.elems, mem_filter, Finset.mem_erase]
        constructor
        · intro hp
          obtain ⟨hz, himp⟩ := hp
          exact ⟨⟨fun hzf => hin (hzf ▸ himp (by push_cast; omega)), hz⟩, fun hz' => himp (by push_cast; omega)⟩
        · intro hp
          obtain ⟨⟨hne, hz⟩, himp⟩ := hp
          exact ⟨hz, fun hz' => himp (by push_cast at hz'; omega)⟩
      rw [hset]
      exact hd₁.trans hd'

theorem excludeDomCompAux_eq (hx : dx.Shape) (hv : dy.var = .susp) (h : dy.Shape) (hex : dy.Exact)
    (hcard : 2 ≤ (dx.elems ∩ dy.elems).card) :
    ∃ d', excludeDomCompAux dx dy = .ok d' ∧ NarrowedTo dy (dx.elems ∩ dy.elems) d' := by
  obtain ⟨d', hloop, hd'⟩ := excludeDomCompLoop_eq hx (dy.last + 1 - dy.first).toNat dy dy.first hv h hex hcard
  have hset : dx.elems ∩ dy.elems = dy.elems.filter (fun z => dy.first ≤ z ∧
      z < dy.first + (dy.last + 1 - dy.first).toNat → z ∈ dx.elems) := by
    ext z
    simp only [mem_inter, mem_filter]
    constructor
    · intro hp
      obtain ⟨hzx, hzy⟩ := hp
      exact ⟨hzy, fun _ => hzx⟩
    · intro hp
      obtain ⟨hzy, himp⟩ := hp
      have hz := (Dvar.mem_elems.1 hzy).1
      exact ⟨himp (by omega), hzy⟩
  rw [hset]
  exact ⟨d', hloop, hd'⟩

/-! ## The common bounds of two vectors -/

def both (b1 b2 : BitVector) (x : ℤ) : Bool := b1.has x && b2.has x

section
variable (h1 : d1.Shape) (h2 : d2.Shape) (hb1 : d1.type = .bv b1) (hb2 : d2.type = .bv b2)
include h1 h2 hb1 hb2

theorem unifyFirst_eq
    (hm : m ≤ last) : ∀ (k : ℕ) (first : ℤ), d1.first ≤ first → d2.first ≤ first → (last - first).toNat ≤ k →
    NextIn (both b1 b2) first m → unifyFirst d1 d2 last k first = .ok m := by
  intro k
  induction k with
  | zero =>
    intro first _ _ hk hnext
    have := hnext.le
    rw [unifyFirst, show first = m by omega]
  | succ k ih =>
    intro first hf1 hf2 hk hnext
    have hle := hnext.le
    obtain ⟨hm1, hm2⟩ := (Bool.and_eq_true _ _).mp hnext.mem
    unfold unifyFirst
    split_ifs with hlt
    · obtain ⟨f, hf, hfm⟩ := exists_nextIn hm1 hle
      obtain ⟨elm, helm, helmm⟩ := exists_nextIn hm2 hfm
      have hffirst := hf.le
      have helmf := helm.le
      have hgap : NextIn (both b1 b2) elm m := hnext.of_gap (by omega) fun x hx hxe => by
        rw [Bool.eq_false_iff]
        intro hmem
        obtain ⟨hx1, hx2⟩ := (Bool.and_eq_true _ _).mp hmem
        have := helm.le_of_mem (hf.le_of_mem hx hx1) hx2
        omega
      simp only [domainNextBv_eq h1 hb1 hf1 hf, domainNextBv_eq h2 hb2 (hf2.trans hffirst) helm, bind, Except.bind]
      split_ifs with hne
      · exact ih elm (by omega) (by omega) (by omega) hgap
      · have heq : elm = f := not_not.1 hne
        have hmem : both b1 b2 elm = true := by
          rw [both, helm.mem, Bool.and_true, heq]
          exact hf.mem
        rw [← heq, hgap.unique (NextIn.self hmem)]
        rfl
    · rw [show first = m by omega]
      rfl

theorem unifyLast_eq
    (hm : first ≤ m) : ∀ (k : ℕ) (last : ℤ), last ≤ d1.last → last ≤ d2.last → (last - first).toNat ≤ k →
    PrevIn (both b1 b2) last m → unifyLast d1 d2 first k last = .ok m := by
  intro k
  induction k with
  | zero =>
    intro last _ _ hk hprev
    have := hprev.le
    rw [unifyLast, show last = m by omega]
  | succ k ih =>
    intro last hl1 hl2 hk hprev
    have hle := hprev.le
    obtain ⟨hm1, hm2⟩ := (Bool.and_eq_true _ _).mp hprev.mem
    unfold unifyLast
    split_ifs with hlt
    · obtain ⟨l, hl, hlm⟩ := exists_prevIn hm1 hle
      obtain ⟨elm, helm, helmm⟩ := exists_prevIn hm2 hlm
      have hllast := hl.le
      have helml := helm.le
      have hgap : PrevIn (both b1 b2) elm m := hprev.of_gap (by omega) fun x hx hxe => by
        rw [Bool.eq_false_iff]
        intro hmem
        obtain ⟨hx1, hx2⟩ := (Bool.and_eq_true _ _).mp hmem
        have := helm.le_of_mem (hl.le_of_mem hxe hx1) hx2
        omega
      simp only [domainPrevBv_eq h1 hb1 hl1 hl, domainPrevBv_eq h2 hb2 (hllast.trans hl2) helm, bind, Except.bind]
      split_ifs with hne
      · exact ih elm (by omega) (by omega) (by omega) hgap
      · have heq : elm = l := not_not.1 hne
        have hmem : both b1 b2 elm = true := by
          rw [both, helm.mem, Bool.and_true, heq]
          exact hl.mem
        rw [← heq, hgap.unique (PrevIn.self hmem)]
        rfl
    · rw [show last = m by omega]
      rfl

end

/-- From `first` on, the scans of the first loop go off the second vector: from some place `p` where the loop can stand, the
next element `e` of the first domain is after all of the second one, and no bit of its vector is set from `e` on. -/
def StrayFrom (d1 d2 : Dvar) (b2 : BitVector) (first : ℤ) : Prop :=
  ∃ p e, (p = first ∨ p ∈ d2.elems) ∧ first ≤ p ∧ p < d2.last ∧ e ∈ d1.elems ∧ d2.last < e ∧
    (∀ x ∈ d1.elems, p ≤ x → e ≤ x) ∧ ∀ x, e ≤ x → b2.has x = false

/-- On disjoint domains the first loop ends at or after `last`, or runs off the second vector. -/
theorem unifyFirst_disjoint (h1 : d1.Shape) (h2 : d2.Shape) (hb1 : d1.type = .bv b1) (hb2 : d2.type = .bv b2)
    (hl : last = min d1.last d2.last) (hdis : d1.elems ∩ d2.elems = ∅) :
    ∀ (k : ℕ) (first : ℤ), d1.first ≤ first → d2.first ≤ first → (last - first).toNat ≤ k →
      (StrayFrom d1 d2 b2 first ∧ unifyFirst d1 d2 last k first = .error .oob) ∨
      (¬ StrayFrom d1 d2 b2 first ∧ ∃ r, unifyFirst d1 d2 last k first = .ok r ∧ last ≤ r) := by
  have hnostray : ∀ first, last ≤ first → ¬ StrayFrom d1 d2 b2 first := by
    rintro first hge ⟨p, e, -, hfp, hp, he, hle, -, -⟩
    have := (Dvar.mem_elems.1 he).1
    omega
  intro k
  induction k with
  | zero =>
    intro first _ _ hk
    exact .inr ⟨hnostray _ (by omega), first, rfl, by omega⟩
  | succ k ih =>
    intro first hf1 hf2 hk
    unfold unifyFirst
    split_ifs with hlt
    · have hlast1 : b1.has d1.last = true := by simpa [hb1] using h1.last_mem
      have hlast2 : b2.has d2.last = true := by simpa [hb2] using h2.last_mem
      obtain ⟨f, hf, hfl⟩ := exists_nextIn hlast1 (show first ≤ d1.last by omega)
      have hffirst := hf.le
      have hfS : f ∈ d1.elems := Dvar.mem_elems.2 ⟨by omega, by rw [hb1]; exact hf.mem⟩
      simp only [domainNextBv_eq h1 hb1 hf1 hf, bind, Except.bind]
      -- the element of a stray place is never before the next element of the first domain
      have hstray_le : ∀ p e, p ≤ f → (∀ x ∈ d1.elems, p ≤ x → e ≤ x) → e ≤ f := fun p e hpf hmin => hmin f hfS hpf
      by_cases hf2l : f ≤ d2.last
      · obtain ⟨elm, helm, helml⟩ := exists_nextIn hlast2 hf2l
        have helmf := helm.le
        have helmS : elm ∈ d2.elems := Dvar.mem_elems.2 ⟨by omega, by rw [hb2]; exact helm.mem⟩
        have hne : elm ≠ f := by
          rintro rfl
          have hmem : elm ∈ d1.elems ∩ d2.elems := mem_inter.2 ⟨hfS, helmS⟩
          rw [hdis] at hmem
          simp at hmem
        have hiff : StrayFrom d1 d2 b2 first ↔ StrayFrom d1 d2 b2 elm := by
          constructor
          · intro h
            obtain ⟨p, e, hpS, hfp, hp, he, hle, hmin, hclear⟩ := h
            have hpf : f < p := by
              by_contra hpf
              have := hstray_le p e (by omega) hmin
              omega
            rcases hpS with rfl | hpS
            · omega
            · have hp2 : b2.has p = true := by simpa [hb2] using (Dvar.mem_elems.1 hpS).2
              exact ⟨p, e, .inr hpS, helm.le_of_mem hpf.le hp2, hp, he, hle, hmin, hclear⟩
          · intro h
            obtain ⟨p, e, hpS, hfp, hp, he, hle, hmin, hclear⟩ := h
            refine ⟨p, e, .inr ?_, by omega, hp, he, hle, hmin, hclear⟩
            rcases hpS with rfl | hpS
            · exact helmS
            · exact hpS
        simp only [domainNextBv_eq h2 hb2 (hf2.trans hffirst) helm, if_pos hne, hiff]
        exact ih elm (by omega) (by omega) (by omega)
      · by_cases hbits : ∃ x, f ≤ x ∧ b2.has x = true
        · obtain ⟨x, hfx, hx⟩ := hbits
          obtain ⟨elm, helm, -⟩ := exists_nextIn hx hfx
          have helmf := helm.le
          have hnot : ¬ StrayFrom d1 d2 b2 first := by
            intro h
            obtain ⟨p, e, hpS, hfp, hp, he, hle, hmin, hclear⟩ := h
            have hef := hstray_le p e (by omega) hmin
            have := hclear x (by omega)
            rw [hx] at this
            contradiction
          simp only [domainNextBv_eq h2 hb2 (hf2.trans hffirst) helm]
          split_ifs with hne
          · refine .inr ⟨hnot, elm, ?_, by omega⟩
            cases k with
            | zero => rfl
            | succ k => rw [unifyFirst, if_neg (by omega)]; rfl
          · exact .inr ⟨hnot, f, rfl, by omega⟩
        · have hclear : ∀ x, f ≤ x → b2.has x = false := fun x hx => by
            rw [Bool.eq_false_iff]
            exact fun hmem => hbits ⟨x, hx, hmem⟩
          have hoob : domainNextBv d2 f = .error .oob := by
            simp only [domainNextBv, Dvar.bvPtr, hb2, bind, Except.bind]
            exact bvNextIn_oob hclear
          simp only [hoob]
          refine .inl ⟨⟨first, f, .inl rfl, le_refl _, by omega, hfS, by omega, fun x hx hfx => ?_, hclear⟩, trivial⟩
          exact hf.le_of_mem hfx (by simpa [hb1] using (Dvar.mem_elems.1 hx).2)
    · exact .inr ⟨hnostray _ (by omega), first, rfl, by omega⟩

/-! ## The merged variable -/

/-- What the call is for: failure on disjoint domains, the common value on a single one, and otherwise one free variable at
`p` with the intersection, to which both are bound. -/
def UnifyCorrect (p : ℕ) (d1 d2 : Dvar) : Except Stop (Dvar × Dvar × Option Dvar) → Prop
  | .error .fail => d1.elems ∩ d2.elems = ∅
  | .error .oob => False
  | .ok (d1', d2', none) => ∃ v, d1.elems ∩ d2.elems = {v} ∧ d1'.var = .int v ∧ d2'.var = .int v
  | .ok (d1', d2', some top) => 2 ≤ (d1.elems ∩ d2.elems).card ∧ top.var = .susp ∧ top.Inv ∧
      top.elems = d1.elems ∩ d2.elems ∧ d1'.var = .ref p ∧ d2'.var = .ref p

theorem mergeInto_correct {source d1' d2' : Dvar} (p : ℕ) (hcard : 2 ≤ (d1.elems ∩ d2.elems).card) :
    UnifyCorrect p d1 d2 (.ok (mergeInto source p d1' d2')) ↔
      source.RepInv ∧ source.first < source.last ∧ source.elems = d1.elems ∩ d2.elems := by
  constructor
  · intro h
    obtain ⟨-, -, hinv, helems, -, -⟩ := h
    exact ⟨⟨hinv.rep.it, hinv.rep.bv⟩, hinv.susp rfl, helems⟩
  · intro h
    obtain ⟨hrep, hlt, helems⟩ := h
    exact ⟨hcard, rfl, ⟨⟨hrep.it, hrep.bv⟩, hlt.le, fun _ => hlt, fun p hp => by simp [dmClone] at hp⟩,
      helems, rfl, rfl⟩

theorem unifyUpdateFirstLastSize_self (d : Dvar) (size : ℤ) : unifyUpdateFirstLastSize d d.first d.last size = d := by
  simp [unifyUpdateFirstLastSize]

theorem unifyUpdateFirstLastSize_of_ne {size : ℤ} (h : d.first ≠ first ∨ d.last ≠ last) :
    unifyUpdateFirstLastSize d first last size = { d with first := first, last := last, size := size } := by
  unfold unifyUpdateFirstLastSize
  split_ifs with hf hl hl
  · rfl
  · rw [not_not] at hl
    rw [← hl]
    rfl
  · rw [not_not] at hf
    rw [← hf]
    rfl
  · rcases h with h | h
    · exact absurd h hf
    · exact absurd h hl

theorem NarrowedTo.bounds {f l : ℤ} (h : NarrowedTo d S d') (hf : IsLeast (S : Set ℤ) f) (hl : IsGreatest (S : Set ℤ) l) :
    d'.first = f ∧ d'.last = l := by
  have hfirst := h.shape.first_mem_elems
  have hlast := h.shape.last_mem_elems
  rw [h.elems] at hfirst hlast
  have hf' := hf.1
  have hl' := hl.1
  rw [mem_coe, ← h.elems, Dvar.mem_elems] at hf' hl'
  exact ⟨le_antisymm hf'.1.1 (hf.2 hfirst), le_antisymm (hl.2 hlast) hl'.1.2⟩

theorem countDomainElms_merge {f l : ℤ} (h : d.Shape) (hb : d.type = .bv b) (hf : b.low ≤ f) (hfl : f ≤ l) (hl : l ≤ b.up) :
    (l = b.up ∧ countDomainElms d f l = .error .oob) ∨ (l ≠ b.up ∧ ∃ c : ℤ, countDomainElms d f l = .ok c ∧
        (c = (members b.has f l).card ↔ (members b.has f l).card < 2 ^ 31)) := by
  have hfill : b.up + 1 = b.low + 64 * b.words.length := h.filled b hb
  by_cases heq : l = b.up
  · exact .inl ⟨heq, countDomainElms_oob hb hf hfl (by omega)⟩
  · exact .inr ⟨heq, _, countDomainElms_eq hb hf hfl (by omega), bmod_eq_iff _⟩

/-! ## The branches -/

/-- An interval and a vector (`di` and `dv`): the count runs off the vector, or it does not fit an `int` and the
vector is updated with it. -/
def IntervalStray (di dv : Dvar) (b : BitVector) : Prop :=
  2 ≤ (di.elems ∩ dv.elems).card ∧ (b.up ∈ di.elems ∩ dv.elems ∨
      dv.outerDomCs = false ∧ (dv.first ∉ di.elems ∨ dv.last ∉ di.elems) ∧ ¬ (di.elems ∩ dv.elems).card < 2 ^ 31)

theorem excludeOuter_eq (hx : dx.Shape) (hv : dy.var = .susp) (h : dy.Shape) (hex : dy.Exact)
    (hS : dx.elems ∩ dy.elems = S) (hcard : 2 ≤ S.card) :
    ∃ d', excludeOuter dx dy = .ok d' ∧ d'.Shape ∧ d'.elems ∩ S = S ∧
      (dy.outerDomCs = true ∧ NarrowedTo dy S d' ∨ dy.outerDomCs = false ∧ d' = dy) := by
  unfold excludeOuter
  cases hcs : dy.outerDomCs
  · refine ⟨dy, rfl, h, ?_, .inr ⟨rfl, rfl⟩⟩
    rw [← hS]
    exact inter_eq_right.2 inter_subset_right
  · obtain ⟨d', hr, hd'⟩ := excludeDomCompAux_eq hx hv h hex (hS ▸ hcard)
    rw [hS] at hd'
    exact ⟨d', hr, hd'.shape, by rw [hd'.elems, inter_self], .inl ⟨rfl, hd'⟩⟩

/-- The source of a clone of two intervals is right whether or not elements were excluded one by one. -/
theorem itdvar_source {f l : ℤ} (hd : d.type = .it) (hfl : f < l) (hS : S = Finset.Icc f l)
    (hd' : NarrowedTo d S d' ∨ d' = d) (hsub : d.first ≤ f ∧ l ≤ d.last) (hex : d.RepInv) :
    (unifyUpdateFirstLastSize d' f l (l - f + 1)).RepInv ∧
      (unifyUpdateFirstLastSize d' f l (l - f + 1)).first < (unifyUpdateFirstLastSize d' f l (l - f + 1)).last ∧
      (unifyUpdateFirstLastSize d' f l (l - f + 1)).elems = S := by
  have hIcc : (S : Set ℤ) = Set.Icc f l := by rw [hS, coe_Icc]
  rcases hd' with hd' | rfl
  · obtain ⟨hf, hl⟩ := hd'.bounds (hIcc ▸ isLeast_Icc hfl.le) (hIcc ▸ isGreatest_Icc hfl.le)
    rw [← hf, ← hl, unifyUpdateFirstLastSize_self]
    exact ⟨hd'.shape.repInv hd'.exact.1, hd'.exact.2, hd'.elems⟩
  · have hit : ∀ b, d'.type = .bv b → False := fun b hb => by rw [hd] at hb; contradiction
    by_cases hne : d'.first ≠ f ∨ d'.last ≠ l
    · rw [unifyUpdateFirstLastSize_of_ne hne]
      refine ⟨⟨fun _ => rfl, fun b hb => (hit b hb).elim⟩, hfl, ?_⟩
      rw [hS, Dvar.elems, hd, members_true fun x _ _ => DvType.has_it x]
    · obtain ⟨hf, hl⟩ := not_or.1 hne
      rw [not_not] at hf hl
      rw [← hf, ← hl, unifyUpdateFirstLastSize_self]
      refine ⟨hex, by omega, ?_⟩
      rw [hS, Dvar.elems, hd, members_true fun x _ _ => DvType.has_it x, hf, hl]

theorem Dvar.elems_of_it (hd : d.type = .it) : d.elems = Finset.Icc d.first d.last := by
  rw [Dvar.elems, hd, members_true fun x _ _ => DvType.has_it x]

theorem two_le_card {x y : ℤ} (hx : x ∈ S) (hy : y ∈ S) (hxy : x ≠ y) : 2 ≤ S.card := by
  rw [← card_pair hxy]
  exact card_le_card (insert_subset hx (singleton_subset_iff.2 hy))

theorem scan_bounds {has : ℤ → Bool} {l : ℤ} (hS : ∀ x, x ∈ S ↔ (first ≤ x ∧ x ≤ last) ∧ has x = true)
    (hm : NextIn has first m) (hl : PrevIn has last l) :
    (∀ x ∈ S, m ≤ x ∧ x ≤ l) ∧ (m ≤ l → m ∈ S ∧ l ∈ S) := by
  have hfm := hm.le
  have hll := hl.le
  constructor
  · intro x hx
    obtain ⟨hxr, hxb⟩ := (hS x).1 hx
    exact ⟨hm.le_of_mem hxr.1 hxb, hl.le_of_mem hxr.2 hxb⟩
  · intro hle
    exact ⟨(hS m).2 ⟨by omega, hm.mem⟩, (hS l).2 ⟨by omega, hl.mem⟩⟩

theorem eq_singleton_of_bounds (hm : m ∈ S) (hbounds : ∀ x ∈ S, m ≤ x ∧ x ≤ m) : S = {m} := by
  apply eq_singleton_iff_unique_mem.2
  refine ⟨hm, fun x hx => ?_⟩
  have := hbounds x hx
  omega

theorem itdvarItdvar_correct {p1 p2 : ℕ} (h1 : d1.Inv) (h2 : d2.Inv) (hv1 : d1.var = .susp) (hv2 : d2.var = .susp)
    (ht1 : d1.type = .it) (ht2 : d2.type = .it) (hfirst : first = max d1.first d2.first)
    (hlast : last = min d1.last d2.last) (hle : first ≤ last) :
    UnifyCorrect p d1 d2 (itdvarItdvar p1 p2 p d1 d2 first last) := by
  have hS : d1.elems ∩ d2.elems = Finset.Icc first last := by
    ext x
    rw [Dvar.elems_of_it ht1, Dvar.elems_of_it ht2, mem_inter]
    simp only [mem_Icc]
    omega
  unfold itdvarItdvar
  by_cases heq : last = first
  · rw [if_pos heq]
    exact ⟨first, by rw [hS, heq, Finset.Icc_self], rfl, rfl⟩
  rw [if_neg heq]
  have hlt : first < last := by omega
  have hcard : 2 ≤ (d1.elems ∩ d2.elems).card := by
    rw [hS, Int.card_Icc]
    omega
  obtain ⟨d1', hr1, hs1, hsub1, hd1⟩ :=
    excludeOuter_eq h2.shape hv1 h1.shape (h1.exact hv1) (inter_comm _ _) hcard
  have hinter : d1'.elems ∩ d2.elems = d1.elems ∩ d2.elems := by
    rcases hd1 with ⟨-, hd1⟩ | ⟨-, rfl⟩
    · rw [hd1.elems, inter_assoc, inter_self]
    · rfl
  obtain ⟨d2', hr2, -, -, hd2⟩ := excludeOuter_eq hs1 hv2 h2.shape (h2.exact hv2) hinter hcard
  have hsource1 := itdvar_source ht1 hlt hS (hd1.imp (·.2) (·.2)) (by omega) h1.rep
  have hsource2 := itdvar_source ht2 hlt hS (hd2.imp (·.2) (·.2)) (by omega) h2.rep
  simp only [hr1, hr2, bind, Except.bind, pure, Except.pure]
  rw [mergeInto_correct p hcard]
  split_ifs
  · exact hsource1
  · exact hsource2

theorem itdvarBvdvar_iff (h1 : d1.Inv) (h2 : d2.Inv) (hv1 : d1.var = .susp) (hv2 : d2.var = .susp)
    (ht1 : d1.type = .it) (hb : d2.type = .bv b) (hfirst : first = max d1.first d2.first)
    (hlast : last = min d1.last d2.last) (hle : first ≤ last) :
    UnifyCorrect p d1 d2 (itdvarBvdvar p d1 d2 first last) ↔ ¬ IntervalStray d1 d2 b := by
  have hs2 := h2.shape
  have hlow := hs2.low_le hb
  have hup := hs2.last_le_up hb
  have hS : ∀ x, x ∈ d1.elems ∩ d2.elems ↔ (first ≤ x ∧ x ≤ last) ∧ b.has x = true := fun x => by
    rw [Dvar.elems_of_it ht1, mem_inter, Dvar.mem_elems, hb, mem_Icc, DvType.has_bv, ← and_assoc, and_congr_left_iff]
    intro _
    omega
  obtain ⟨m, hm, hml⟩ := exists_nextIn (show b.has d2.last = true by simpa [hb] using hs2.last_mem)
    (show first ≤ d2.last by omega)
  obtain ⟨l, hl, hfl⟩ := exists_prevIn (show b.has d2.first = true by simpa [hb] using hs2.first_mem)
    (show d2.first ≤ last by omega)
  have hfm := hm.le
  have hll := hl.le
  obtain ⟨hbounds, hmem⟩ := scan_bounds hS hm hl
  unfold itdvarBvdvar
  simp only [domainNextBv_eq hs2 hb (show d2.first ≤ first by omega) hm,
    domainPrevBv_eq hs2 hb (show last ≤ d2.last by omega) hl, bind, Except.bind, pure, Except.pure]
  by_cases hgt : m > l
  · -- nothing is in common
    have hempty : d1.elems ∩ d2.elems = ∅ := by
      rw [eq_empty_iff_forall_notMem]
      intro x hx
      have := hbounds x hx
      omega
    rw [if_pos hgt]
    apply iff_of_true hempty
    intro hstray
    have := hstray.1
    rw [hempty, card_empty] at this
    omega
  rw [if_neg hgt]
  obtain ⟨hmS, hlS⟩ := hmem (not_lt.1 hgt)
  by_cases heq : l = m
  · have hsingle : d1.elems ∩ d2.elems = {m} := eq_singleton_of_bounds hmS (heq ▸ hbounds)
    rw [if_pos heq]
    apply iff_of_true ⟨m, hsingle, rfl, rfl⟩
    intro hstray
    have := hstray.1
    rw [hsingle, card_singleton] at this
    omega
  rw [if_neg heq]
  have hcard : 2 ≤ (d1.elems ∩ d2.elems).card := two_le_card hmS hlS (Ne.symm heq)
  obtain ⟨d1', hr1, hs1, -, hd1⟩ :=
    excludeOuter_eq hs2 hv1 h1.shape (h1.exact hv1) (inter_comm _ _) hcard
  have hinter : d1'.elems ∩ d2.elems = d1.elems ∩ d2.elems := by
    rcases hd1 with ⟨-, hd1⟩ | ⟨-, rfl⟩
    · rw [hd1.elems, inter_assoc, inter_self]
    · rfl
  obtain ⟨d2', hr2, hs2', -, hd2⟩ := excludeOuter_eq hs1 hv2 hs2 (h2.exact hv2) hinter hcard
  simp only [hr1, hr2]
  obtain ⟨b', hb', hlow', hup'⟩ : ∃ b', d2'.type = .bv b' ∧ b'.low = b.low ∧ b'.up = b.up := by
    rcases hd2 with ⟨-, hd2⟩ | ⟨-, rfl⟩
    · exact hd2.range b hb
    · exact ⟨b, hb, rfl, rfl⟩
  have hup_iff : b.up ∈ d1.elems ∩ d2.elems ↔ l = b'.up := by
    refine ⟨fun hmem => ?_, fun h => hup' ▸ h ▸ hlS⟩
    have := hbounds _ hmem
    omega
  rcases countDomainElms_merge hs2' hb' (show b'.low ≤ m by omega) (show m ≤ l by omega) (show l ≤ b'.up by omega)
    with ⟨hlup, hcount⟩ | ⟨hlup, c, hcount, hc⟩
  · simp only [hcount]
    exact iff_of_false id fun hstray => hstray ⟨hcard, .inl (hup_iff.2 hlup)⟩
  simp only [hcount]
  rw [mergeInto_correct p hcard]
  rcases hd2 with ⟨hcs, hd2⟩ | ⟨hcs, rfl⟩
  · -- the elements were excluded one by one: the bounds and the size are right already
    obtain ⟨hf', hl'⟩ := hd2.bounds (f := m) (l := l) ⟨mem_coe.2 hmS, fun x hx => (hbounds x hx).1⟩
      ⟨mem_coe.2 hlS, fun x hx => (hbounds x hx).2⟩
    rw [← hf', ← hl', unifyUpdateFirstLastSize_self]
    apply iff_of_true ⟨hd2.shape.repInv hd2.exact.1, hd2.exact.2, hd2.elems⟩
    intro hp
    obtain ⟨-, hup2 | ⟨hcs', -⟩⟩ := hp
    · exact hlup (hup_iff.1 hup2)
    · rw [hcs] at hcs'
      contradiction
  · obtain rfl : b' = b := DvType.bv.inj (hb'.symm.trans hb)
    have helems : d1.elems ∩ d2'.elems = members b'.has m l := by
      ext x
      rw [mem_members]
      exact ⟨fun hx => ⟨hbounds x hx, ((hS x).1 hx).2⟩, fun hx => (hS x).2 ⟨by omega, hx.2⟩⟩
    have hstray_iff : IntervalStray d1 d2' b' ↔
        (d2'.first ≠ m ∨ d2'.last ≠ l) ∧ ¬ (members b'.has m l).card < 2 ^ 31 := by
      have hf : d2'.first ∈ d1.elems ↔ d2'.first = m := by
        refine ⟨fun hmem => ?_, fun heq => heq ▸ (mem_inter.1 hmS).1⟩
        have := hbounds _ (mem_inter.2 ⟨hmem, hs2.first_mem_elems⟩)
        omega
      have hl' : d2'.last ∈ d1.elems ↔ d2'.last = l := by
        refine ⟨fun hmem => ?_, fun heq => heq ▸ (mem_inter.1 hlS).1⟩
        have := hbounds _ (mem_inter.2 ⟨hmem, hs2.last_mem_elems⟩)
        omega
      rw [IntervalStray, hup_iff, hcs, hf, hl', ← helems]
      exact ⟨fun h => (h.2.resolve_left hlup).2, fun h => ⟨hcard, .inr ⟨rfl, h⟩⟩⟩
    rw [hstray_iff]
    by_cases hne : d2'.first ≠ m ∨ d2'.last ≠ l
    · rw [unifyUpdateFirstLastSize_of_ne hne, helems]
      refine ⟨fun ⟨hrep, _, _⟩ hnot => ?_, fun hnot => ⟨⟨fun hd => ?_, fun b₀ hb₀ => ?_⟩, by simpa using by omega, ?_⟩⟩
      · exact hnot.2 (hc.1 (hrep.bv b' hb).2.2.2.2.2)
      · rw [hb] at hd
        contradiction
      · obtain rfl : b' = b₀ := DvType.bv.inj (hb.symm.trans hb₀)
        refine ⟨hs2.filled b' hb, by simpa using by omega, by simpa using by omega, hm.mem, hl.mem, ?_⟩
        exact hc.2 (not_not.1 fun hbig => hnot ⟨hne, hbig⟩)
      · rw [Dvar.elems, hb]
        rfl
    · obtain ⟨hf, hl'⟩ := not_or.1 hne
      rw [not_not] at hf hl'
      rw [← hf, ← hl', unifyUpdateFirstLastSize_self]
      refine iff_of_true ⟨h2.rep, h2.susp hv2, ?_⟩ fun h => ?_
      · rw [helems, Dvar.elems, hb, hf, hl']
        rfl
      · rcases h.1 with h | h
        · exact h rfl
        · exact h rfl

def VectorStray (d1 d2 : Dvar) (b2 : BitVector) : Prop :=
  (d1.elems ∩ d2.elems = ∅ ∧ StrayFrom d1 d2 b2 (max d1.first d2.first)) ∨
    (2 ≤ (d1.elems ∩ d2.elems).card ∧ b2.up ∈ d1.elems ∩ d2.elems)

theorem bvdvarBvdvar_iff {p1 p2 : ℕ} (h1 : d1.Inv) (h2 : d2.Inv) (hv1 : d1.var = .susp) (hv2 : d2.var = .susp)
    (hb1 : d1.type = .bv b1) (hb2 : d2.type = .bv b2) (hfirst : first = max d1.first d2.first)
    (hlast : last = min d1.last d2.last) :
    UnifyCorrect p d1 d2 (bvdvarBvdvar p1 p2 p d1 d2 first last) ↔ ¬ VectorStray d1 d2 b2 := by
  have hs1 := h1.shape
  have hs2 := h2.shape
  have hlow := hs2.low_le hb2
  have hup := hs2.last_le_up hb2
  have hS : ∀ x, x ∈ d1.elems ∩ d2.elems ↔ (first ≤ x ∧ x ≤ last) ∧ both b1 b2 x = true := fun x => by
    rw [mem_inter, Dvar.mem_elems, Dvar.mem_elems, hb1, hb2, DvType.has_bv, DvType.has_bv, both, Bool.and_eq_true]
    constructor
    · intro hp
      obtain ⟨⟨hx1, hm1⟩, hx2, hm2⟩ := hp
      exact ⟨by omega, hm1, hm2⟩
    · intro hp
      obtain ⟨hx, hm1, hm2⟩ := hp
      exact ⟨⟨by omega, hm1⟩, by omega, hm2⟩
  unfold bvdvarBvdvar
  rcases (d1.elems ∩ d2.elems).eq_empty_or_nonempty with hempty | ⟨v, hv⟩
  · -- disjoint: the first loop is the only one to run
    have hiff : VectorStray d1 d2 b2 ↔ StrayFrom d1 d2 b2 first := by
      rw [VectorStray, hempty, card_empty, hfirst]
      exact ⟨fun h => h.elim And.right fun h => by omega, fun h => .inl ⟨rfl, h⟩⟩
    rw [hiff]
    rcases unifyFirst_disjoint hs1 hs2 hb1 hb2 hlast hempty (last - first).toNat first (by omega) (by omega)
      (le_refl _) with ⟨hstray, hloop⟩ | ⟨hstray, r, hloop, hr⟩
    · simp only [hloop, bind, Except.bind]
      exact iff_of_false id fun hnot => hnot hstray
    · refine iff_of_true ?_ hstray
      have hlastLoop : unifyLast d1 d2 r (last - r).toNat last = .ok last := by
        rw [show (last - r).toNat = 0 by omega]
        rfl
      simp only [hloop, hlastLoop, bind, Except.bind]
      by_cases hgt : r > last
      · rw [if_pos hgt]
        exact hempty
      · have hnot : ¬ (r ∈ d1.elems ∧ r ∈ d2.elems) := fun hr => by
          have hmem := mem_inter.2 hr
          rw [hempty] at hmem
          simp at hmem
        rw [if_neg hgt, if_pos (by omega)]
        simp only [dmTrue_eq hs1, dmTrue_eq hs2]
        split_ifs with hr1 hr2
        · exact absurd ⟨of_decide_eq_true hr1, of_decide_eq_true hr2⟩ hnot
        · exact hempty
        · exact hempty
  -- the loops find the bounds of the intersection
  obtain ⟨hvr, hvb⟩ := (hS v).1 hv
  obtain ⟨m, hm, hmv⟩ := exists_nextIn hvb hvr.1
  obtain ⟨l, hl, hvl⟩ := exists_prevIn hvb hvr.2
  have hfm := hm.le
  have hll := hl.le
  have hloop1 := unifyFirst_eq hs1 hs2 hb1 hb2 (show m ≤ last by omega) (last - first).toNat first (by omega) (by omega)
    (le_refl _) hm
  have hloop2 := unifyLast_eq hs1 hs2 hb1 hb2 (show m ≤ l by omega) (last - m).toNat last (by omega) (by omega)
    (le_refl _) hl
  obtain ⟨hbounds, hmem⟩ := scan_bounds hS hm hl
  obtain ⟨hmS, hlS⟩ := hmem (by omega)
  have hnotempty : d1.elems ∩ d2.elems ≠ ∅ := nonempty_iff_ne_empty.1 ⟨v, hv⟩
  have hstray_iff : VectorStray d1 d2 b2 ↔ 2 ≤ (d1.elems ∩ d2.elems).card ∧ b2.up ∈ d1.elems ∩ d2.elems :=
    ⟨fun h => h.resolve_left fun h => hnotempty h.1, .inr⟩
  rw [hstray_iff]
  simp only [hloop1, hloop2, bind, Except.bind, pure, Except.pure]
  rw [if_neg (show ¬ m > l by omega)]
  by_cases heq : l = m
  · have hsingle : d1.elems ∩ d2.elems = {m} := eq_singleton_of_bounds hmS (heq ▸ hbounds)
    have hm12 := mem_inter.1 hmS
    rw [if_pos heq, hsingle, card_singleton]
    simp only [dmTrue_eq hs1, dmTrue_eq hs2, decide_eq_true hm12.1, decide_eq_true hm12.2, if_true]
    exact iff_of_true ⟨m, hsingle, rfl, rfl⟩ fun h => by omega
  rw [if_neg heq]
  have hcard : 2 ≤ (d1.elems ∩ d2.elems).card := two_le_card hmS hlS (Ne.symm heq)
  obtain ⟨d2', hr2, hd2⟩ := excludeDomCompAux_eq hs1 hv2 hs2 (h2.exact hv2) hcard
  have hinter : d2'.elems ∩ d1.elems = d1.elems ∩ d2.elems := by
    rw [hd2.elems, inter_right_comm, inter_self]
  obtain ⟨d1', hr1, hd1⟩ := excludeDomCompAux_eq hd2.shape hv1 hs1 (h1.exact hv1) (by rwa [hinter])
  rw [hinter] at hd1
  simp only [hr2, hr1]
  have hleast : IsLeast ((d1.elems ∩ d2.elems : Finset ℤ) : Set ℤ) m :=
    ⟨mem_coe.2 hmS, fun x hx => (hbounds x hx).1⟩
  have hgreatest : IsGreatest ((d1.elems ∩ d2.elems : Finset ℤ) : Set ℤ) l :=
    ⟨mem_coe.2 hlS, fun x hx => (hbounds x hx).2⟩
  obtain ⟨hf1, hl1⟩ := hd1.bounds hleast hgreatest
  obtain ⟨hf2, hl2⟩ := hd2.bounds hleast hgreatest
  obtain ⟨b', hb', hlow', hup'⟩ := hd2.range b2 hb2
  have hup_iff : b2.up ∈ d1.elems ∩ d2.elems ↔ l = b'.up := by
    refine ⟨fun hmem => ?_, fun h => hup' ▸ h ▸ hlS⟩
    have := hbounds _ hmem
    omega
  rcases countDomainElms_merge hd2.shape hb' (show b'.low ≤ m by omega) (show m ≤ l by omega)
    (show l ≤ b'.up by omega) with ⟨hlup, hcount⟩ | ⟨hlup, c, hcount, -⟩
  · simp only [hcount]
    exact iff_of_false id fun hnot => hnot ⟨hcard, hup_iff.2 hlup⟩
  · have hself1 : unifyUpdateFirstLastSize d1' m l c = d1' := by
      rw [← hf1, ← hl1, unifyUpdateFirstLastSize_self]
    have hself2 : unifyUpdateFirstLastSize d2' m l c = d2' := by
      rw [← hf2, ← hl2, unifyUpdateFirstLastSize_self]
    simp only [hcount, hself1, hself2]
    rw [mergeInto_correct p hcard]
    refine iff_of_true ?_ fun h => hlup (hup_iff.1 h.2)
    split_ifs
    · exact ⟨hd1.shape.repInv hd1.exact.1, hd1.exact.2, hd1.elems⟩
    · exact ⟨hd2.shape.repInv hd2.exact.1, hd2.exact.2, hd2.elems⟩

/-! ## The call -/

/-- The inputs on which `unify_dvar_dvar` strays. -/
def UnifyStray (d1 d2 : Dvar) : Prop :=
  match d1.type, d2.type with
  | .it, .it => False
  | .it, .bv b => IntervalStray d1 d2 b
  | .bv b, .it => IntervalStray d2 d1 b
  | .bv _, .bv b => VectorStray d1 d2 b

theorem UnifyCorrect.swap {r : Except Stop (Dvar × Dvar × Option Dvar)} :
    UnifyCorrect p d1 d2 (do let (d2, d1, top) ← r; return (d1, d2, top)) ↔ UnifyCorrect p d2 d1 r := by
  rcases r with (_ | _) | ⟨d2', d1', _ | top⟩
  · simp only [bind, Except.bind, UnifyCorrect, inter_comm]
  · rfl
  · simp only [bind, Except.bind, pure, Except.pure, UnifyCorrect, inter_comm d1.elems, and_comm]
  · simp only [bind, Except.bind, pure, Except.pure, UnifyCorrect, inter_comm d1.elems, and_comm]

/-- `unify_dvar_dvar` computes the intersection of two domains exactly on the inputs on which it does not stray. -/
theorem unifyDvarDvar_iff (p1 p2 p : ℕ) (h1 : d1.Inv) (h2 : d2.Inv) (hv1 : d1.var = .susp) (hv2 : d2.var = .susp) :
    UnifyCorrect p d1 d2 (unifyDvarDvar p1 p2 p d1 d2) ↔ ¬ UnifyStray d1 d2 := by
  have hfirst : (if d1.first ≥ d2.first then d1.first else d2.first) = max d1.first d2.first := by
    split_ifs <;> omega
  have hlast : (if d1.last ≤ d2.last then d1.last else d2.last) = min d1.last d2.last := by
    split_ifs <;> omega
  unfold unifyDvarDvar
  simp only [hfirst, hlast]
  by_cases hgt : max d1.first d2.first > min d1.last d2.last
  · -- the intervals of the bounds are apart
    have hempty : d1.elems ∩ d2.elems = ∅ := by
      rw [eq_empty_iff_forall_notMem]
      intro x hx
      have hx1 := (Dvar.mem_elems.1 (mem_inter.1 hx).1).1
      have hx2 := (Dvar.mem_elems.1 (mem_inter.1 hx).2).1
      omega
    have hnot : ∀ {S : Finset ℤ}, S = ∅ → ¬ 2 ≤ S.card := fun hS => by simp [hS]
    rw [if_pos hgt]
    apply iff_of_true hempty
    unfold UnifyStray
    split
    · exact id
    · exact fun h => hnot hempty h.1
    · exact fun h => hnot (by rw [inter_comm, hempty]) h.1
    · rintro (⟨-, p, e, -, hfp, hp, he, hle, -, -⟩ | h)
      · have := (Dvar.mem_elems.1 he).1
        omega
      · exact hnot hempty h.1
  rw [if_neg hgt]
  have hle : max d1.first d2.first ≤ min d1.last d2.last := not_lt.1 hgt
  unfold UnifyStray
  cases ht1 : d1.type with
  | it =>
    rw [if_pos rfl]
    cases ht2 : d2.type with
    | it =>
      rw [if_pos rfl]
      exact iff_of_true (itdvarItdvar_correct h1 h2 hv1 hv2 ht1 ht2 rfl rfl hle) id
    | bv b =>
      rw [if_neg (by simp)]
      exact itdvarBvdvar_iff h1 h2 hv1 hv2 ht1 ht2 rfl rfl hle
  | bv b1 =>
    rw [if_neg (by simp)]
    cases ht2 : d2.type with
    | it =>
      rw [if_pos rfl, UnifyCorrect.swap]
      exact itdvarBvdvar_iff h2 h1 hv2 hv1 ht2 ht1 (max_comm _ _) (min_comm _ _) hle
    | bv b2 =>
      rw [if_neg (by simp)]
      exact bvdvarBvdvar_iff h1 h2 hv1 hv2 ht1 ht2 rfl rfl

theorem unifyDvarDvar_intervals : UnifyCorrect 20 (auxCreateDomainVar 0 3) (auxCreateDomainVar 1 5)
      (unifyDvarDvar 0 10 20 (auxCreateDomainVar 0 3) (auxCreateDomainVar 1 5)) :=
  (unifyDvarDvar_iff 0 10 20 (auxCreateDomainVar_inv (by omega)) (auxCreateDomainVar_inv (by omega)) rfl rfl).2 id

/-- `{0, 100}` and `{1, 50}` are disjoint, but their unification does not fail: the scan for the element of the second domain
after `100` runs off its vector, which has the words of `1..50` only. -/
theorem unifyDvarDvar_scan_oob :
    ∃ d1 d2, (DomOp.excludeInterval 1 99).exec false (Creation.dvar 0 100).dvarOf = .ok d1 ∧
      (DomOp.excludeInterval 2 49).exec false (Creation.dvar 1 50).dvarOf = .ok d2 ∧
      d1.Inv ∧ d2.Inv ∧ d1.var = .susp ∧ d2.var = .susp ∧ d1.elems ∩ d2.elems = ∅ ∧
      unifyDvarDvar 0 10 20 d1 d2 = .error .oob := by
  obtain ⟨hinv1, hdom1⟩ := (Reaches.step (.excludeInterval 1 99) false
    (.create (c := .dvar 0 100) (show (0 : ℤ) ≤ 100 by omega)) (show (1 : ℤ) ≤ 99 by omega) (by simp)
    (by simp [DomOp.Fits, Dvar.ExcludeFits, Creation.dvarOf, bDmCreateDvar, auxCreateDomainVar]) rfl).inv
  obtain ⟨hinv2, hdom2⟩ := (Reaches.step (.excludeInterval 2 49) false
    (.create (c := .dvar 1 50) (show (1 : ℤ) ≤ 50 by omega)) (show (2 : ℤ) ≤ 49 by omega) (by simp)
    (by simp [DomOp.Fits, Dvar.ExcludeFits, Creation.dvarOf, bDmCreateDvar, auxCreateDomainVar]) rfl).inv
  refine ⟨_, _, rfl, rfl, hinv1, hinv2, rfl, rfl, ?_, rfl⟩
  have helems1 := (Dvar.dom_susp rfl).symm.trans hdom1
  have helems2 := (Dvar.dom_susp rfl).symm.trans hdom2
  rw [helems1, helems2, eq_empty_iff_forall_notMem]
  intro x hx
  simp only [DomOp.post, Creation.interval, mem_inter, mem_sdiff, mem_Icc] at hx
  omega

end

end Picat
