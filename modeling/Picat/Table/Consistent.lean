import Picat.Table.Propagate

/-!
# What a revision leaves has support

From variables with the representation invariant, and when the elements outside of the range of a trie are few enough to
be counted.

* `reviseVar_shrinks` : the inner loop of `b_CFD_REMOVE_AC_UNSUPPORTED`, and `tablePropagators_spec`.
-/

namespace Picat

open BitScan Function Finset

/-! ## Steps that remove values -/

/-- Every value of `x` has a support among the values of `y`. -/
def HasSupports (tuples : List (List ℤ)) (i j : ℕ) (s : Store) (x y : FdTerm) : Prop :=
  ∀ k ∈ x.dom s, ∃ w ∈ y.dom s, w ∈ supports tuples i j k

/-- A step on the variables of `live` that keeps their invariant, removes values only, and changes no variable but `x`. -/
structure Shrinks (live : ℕ → Prop) (x : FdTerm) (s s' : Store) : Prop where
  inv : ∀ q, live q → (s' q).Inv
  sub : ∀ q, (s' q).dom ⊆ (s q).dom
  frame : ∀ q, x ≠ .dvar q → s' q = s q

/-- A routine that fails, or returns a store with the property `P`; it neither reads outside of its data nor runs on. -/
def FailsOr (P : Store → Prop) (r : Except Stop Store) : Prop := r = .error .fail ∨ ∃ s, r = .ok s ∧ P s

section
variable {P Q : Store → Prop} {r : Except Stop Store} {f : Store → Except Stop Store}

theorem FailsOr.bind (h : FailsOr P r) (hf : ∀ s, P s → FailsOr Q (f s)) : FailsOr Q (r >>= f) := by
  rcases h with rfl | ⟨s, rfl, hP⟩
  · exact .inl rfl
  · exact hf s hP

theorem FailsOr.mono (h : FailsOr P r) (hPQ : ∀ s, P s → Q s) : FailsOr Q r :=
  h.imp_right fun ⟨s, hr, hP⟩ => ⟨s, hr, hPQ s hP⟩

theorem FailsOr.foldlM {ι : Type*} (g : Store → ι → Except Stop Store) (I : List ι → Store → Prop) (l : List ι) (s : Store)
    (h0 : I [] s) (hstep : ∀ done a rest, l = done ++ a :: rest → ∀ s, I done s → FailsOr (I (done ++ [a])) (g s a)) :
    FailsOr (I l) (l.foldlM g s) := by
  suffices hrun : ∀ rest done s, l = done ++ rest → I done s → FailsOr (I l) (rest.foldlM g s) from hrun l [] s rfl h0
  intro rest
  induction rest with
  | nil =>
    intro done s hl hI
    exact .inr ⟨s, rfl, by rwa [hl, List.append_nil]⟩
  | cons a rest ih =>
    intro done s hl hI
    rw [List.foldlM_cons]
    exact (hstep done a rest hl s hI).bind fun s' hI' => ih (done ++ [a]) s' (by rw [hl, List.append_assoc]; rfl) hI'

end

namespace Shrinks

variable {live : ℕ → Prop} {x : FdTerm} {s s' s'' : Store} {r : ℕ} {d : Dvar}

theorem refl (h : ∀ q, live q → (s q).Inv) : Shrinks live x s s := ⟨h, fun _ => Finset.Subset.refl _, fun _ _ => rfl⟩

theorem trans (h : Shrinks live x s s') (h' : Shrinks live x s' s'') : Shrinks live x s s'' :=
  ⟨h'.inv, fun q => (h'.sub q).trans (h.sub q), fun q hq => (h'.frame q hq).trans (h.frame q hq)⟩

theorem update (live : ℕ → Prop) (h : ∀ q, live q → (s q).Inv) (hd : d.Inv) (hsub : d.dom ⊆ (s r).dom) :
    Shrinks live (.dvar r) s (update s r d) := by
  refine ⟨fun q hq => ?_, fun q => ?_, fun q hq => ?_⟩
  · by_cases hqr : q = r
    · subst hqr
      rwa [update_self]
    · rw [update_of_ne hqr]
      exact h q hq
  · by_cases hqr : q = r
    · subst hqr
      rwa [update_self]
    · rw [update_of_ne hqr]
  · exact update_of_ne (fun hqr => hq (by rw [hqr])) _ _

theorem dom_sub (h : Shrinks live x s s') (y : FdTerm) : y.dom s' ⊆ y.dom s := by
  cases y with
  | int v => exact Finset.Subset.refl _
  | dvar r => exact h.sub r

theorem dom_eq {y : FdTerm} (h : Shrinks live x s s') (hy : ∀ r, x = .dvar r → y ≠ .dvar r) : y.dom s' = y.dom s := by
  cases y with
  | int v => rfl
  | dvar r =>
    have hr : s' r = s r := h.frame r fun hxr => hy r hxr rfl
    simp only [FdTerm.dom, hr]

theorem hasSupports {tuples : List (List ℤ)} {i j : ℕ} {y : FdTerm} (h : Shrinks live x s s')
    (hy : ∀ r, x = .dvar r → y ≠ .dvar r) (hs : HasSupports tuples i j s x y) : HasSupports tuples i j s' x y := by
  intro k hk
  rw [h.dom_eq hy]
  exact hs k (h.dom_sub x hk)

end Shrinks

/-! ## One variable -/

section
variable {d d' : Dvar} {e m : ℤ}

/-- The values outside of the range from `0` to `m` can be counted in an `int`. -/
def Dvar.OutsideFits (d : Dvar) (m : ℤ) : Prop :=
  (d.dom.filter fun v => v < 0).card < 2 ^ 31 ∧ (d.dom.filter fun v => m < v).card < 2 ^ 31

theorem Dvar.OutsideFits.mono (h : d.OutsideFits m) (hsub : d'.dom ⊆ d.dom) : d'.OutsideFits m :=
  ⟨(card_le_card (filter_subset_filter _ hsub)).trans_lt h.1, (card_le_card (filter_subset_filter _ hsub)).trans_lt h.2⟩

theorem Dvar.OutsideFits.cutFits (h : d.OutsideFits m) (hv : d.var = .susp) : d.CutFits 0 m := by
  rw [Dvar.OutsideFits, Dvar.dom_susp hv] at h
  refine fun _ _ => ⟨fun _ _ => (card_le_card fun v hv => ?_).trans_lt h.1,
    fun _ _ => (card_le_card fun v hv => ?_).trans_lt h.2⟩
  · obtain ⟨hv, hio⟩ := mem_inter.1 hv
    exact mem_filter.2 ⟨hv, (mem_Ioo.1 hio).2⟩
  · obtain ⟨hv, hio⟩ := mem_inter.1 hv
    exact mem_filter.2 ⟨hv, (mem_Ioo.1 hio).1⟩

theorem Dvar.Inv.regionNoint (h : d.Inv) (hv : d.var = .susp) (hfit : d.OutsideFits m) :
    domainRegionNoint d 0 m = .error .fail ∨
      ∃ d', domainRegionNoint d 0 m = .ok d' ∧ d'.Inv ∧ d'.dom = d.dom ∩ Finset.Icc 0 m := by
  have hcorrect := (DomOp.noint_correct_iff h hv (show DomOp.Pre (.region 0 m) from trivial)).1 fun _ => hfit.cutFits hv
  simp only [DomOp.noint] at hcorrect
  cases hr : domainRegionNoint d 0 m with
  | ok d' =>
    rw [hr] at hcorrect
    exact .inr ⟨d', rfl, hcorrect.2.2.2, hcorrect.1⟩
  | error stop =>
    rw [hr] at hcorrect
    cases stop with
    | fail => exact .inl rfl
    | oob => exact hcorrect.elim

theorem Dvar.Inv.bounds_mem_dom (h : d.Inv) (hv : d.var = .susp) : d.first ∈ d.dom ∧ d.last ∈ d.dom := by
  rw [Dvar.dom_susp hv]
  exact ⟨h.shape.first_mem_elems, h.shape.last_mem_elems⟩

end

/-! ## The loop over a domain -/

section
variable {live : ℕ → Prop} {s₁ s : Store} {r : ℕ} {first last e : ℤ} {supp : ℤ → Prop}
  {supported : Store → ℤ → Except Stop Bool}

/-- The state at the head of the loop over the domain of `r`, entered in `s₁`: what has been passed is supported. -/
structure Scanning (live : ℕ → Prop) (supp : ℤ → Prop) (s₁ : Store) (r : ℕ) (first last : ℤ) (s : Store) (e : ℤ) :
    Prop where
  shrinks : Shrinks live (.dvar r) s₁ s
  dom_sub : (s r).dom ⊆ (s r).elems
  last_eq : (s r).last = last
  first_le : first ≤ e
  le : e ≤ last
  scanned : (s r).ScannedTo e
  passed : ∀ k ∈ (s r).dom, k < e → supp k

theorem Narrowed.dom_sub {d d' : Dvar} {S : Finset ℤ} {fits : Prop} (hn : Narrowed d S fits d') (hv : d.var = .susp)
    (hS : S ⊆ d.elems) : d'.dom ⊆ d'.elems := by
  cases hn with
  | updated hvar hcs hrange hshape helems henough hexact => rw [Dvar.dom_susp (hvar.trans hv)]
  | assigned hSv hexact =>
    rw [Dvar.dom_int rfl, ← hSv]
    exact hS

theorem excludeUnsupported_shrinks {b : Bool} (hr : live r) (h : Scanning live supp s₁ r first last s e)
    (hb : supported s e = .ok b) (hsupp : b = true → supp e) :
    excludeUnsupported domainSetFalseAux supported r s e = .error .fail ∨
    ∃ s', excludeUnsupported domainSetFalseAux supported r s e = .ok (s', !b) ∧ Shrinks live (.dvar r) s s' ∧
      (s' r).dom ⊆ (s' r).elems ∧ (∀ k ∈ (s' r).dom, k ≤ e → supp k) ∧
      (e < last → (s' r).ScannedTo e ∧ (s' r).last = last) := by
  have hinv := h.shrinks.inv r hr
  cases b with
  | true =>
    refine .inr ⟨s, ?_, .refl h.shrinks.inv, h.dom_sub, fun k hk hke => ?_, fun _ => ⟨h.scanned, h.last_eq⟩⟩
    · simp only [excludeUnsupported, hb, bind, Except.bind, if_true]
      rfl
    · rcases hke.lt_or_eq with hlt | rfl
      · exact h.passed k hk hlt
      · exact hsupp rfl
  | false =>
    simp only [excludeUnsupported, hb, bind, Except.bind, Bool.false_eq_true, if_false, updateM]
    rcases hinv.setFalseAux e with ⟨hfail, -⟩ | ⟨d', hd', hinv', hdom, hcase⟩
    · exact .inl (by simp only [hfail])
    refine .inr ⟨update s r d', by simp only [hd']; rfl, ?_, ?_, fun k hk hke => ?_, fun hlt => ?_⟩
    · exact .update live h.shrinks.inv hinv' (hdom ▸ erase_subset _ _)
    · rw [update_self]
      rcases hcase with rfl | hn
      · exact h.dom_sub
      · cases hv : (s r).var with
        | susp => exact hn.dom_sub hv (erase_subset _ _)
        | int v =>
          -- a bound variable is left as it is
          have hd : d' = s r := by
            simp only [domainSetFalseAux, hv] at hd'
            split_ifs at hd'
            exact (Except.ok.inj hd').symm
          rw [hd]
          exact h.dom_sub
        | ref p => exact absurd hv (hinv.not_ref p)
    · rw [update_self, hdom, Finset.mem_erase] at hk
      exact h.passed k hk.2 (lt_of_le_of_ne hke hk.1)
    · rw [update_self]
      rcases hcase with rfl | hn
      · exact ⟨h.scanned, h.last_eq⟩
      · rw [← h.last_eq]
        exact hn.scannedTo hinv.shape h.scanned (h.last_eq ▸ hlt)

/-- The loop that excludes the values that have no support fails, or leaves values that are supported. -/
theorem filterLoop_shrinks (s₁ : Store) (supp : ℤ → Prop) (first : ℤ) (hr : live r)
    (hsup : ∀ s e, Shrinks live (.dvar r) s₁ s → first ≤ e → e ≤ last →
      ∃ b, supported s e = .ok b ∧ (b = true → supp e)) :
    ∀ (fuel : ℕ) (s : Store) (e : ℤ), last - e < fuel → Scanning live supp s₁ r first last s e →
      FailsOr (fun s' => Shrinks live (.dvar r) s₁ s' ∧ ∀ k ∈ (s' r).dom, supp k)
        (filterLoop domainSetFalseAux false supported r last fuel s e) := by
  intro fuel
  induction fuel with
  | zero =>
    intro s e hlt h
    have := h.le
    omega
  | succ fuel ih =>
    intro s e hlt h
    have hel := h.le
    have hfe := h.first_le
    obtain ⟨b, hb, hsupp⟩ := hsup s e h.shrinks hfe hel
    rcases excludeUnsupported_shrinks hr h hb hsupp with hfail | ⟨s', hrun, hshr, hsub, hpassed, hscan⟩
    · exact .inl (by simp only [filterLoop, hfail, bind, Except.bind])
    have hshr' := h.shrinks.trans hshr
    simp only [filterLoop, hrun, bind, Except.bind, Bool.false_and, Bool.false_eq_true, if_false]
    by_cases hlast : e = last
    · rw [if_pos hlast]
      refine .inr ⟨s', rfl, hshr', fun k hk => hpassed k hk ?_⟩
      have hk' := (Dvar.mem_elems.1 (h.dom_sub (hshr.sub r hk))).1.2
      rw [h.last_eq] at hk'
      omega
    rw [if_neg hlast]
    obtain ⟨hscanned, hlast'⟩ := hscan (by omega)
    obtain ⟨e', he', hin, hel'⟩ := (hshr'.inv r hr).shape.nextElm hscanned.low_le (by omega)
    have hge := hin.le
    simp only [he']
    refine ih s' e' (by push_cast at hlt; omega)
      ⟨hshr', hsub, hlast', by omega, by omega, hscanned.mono (by omega), fun k hk hke => hpassed k hk ?_⟩
    -- there is no element between `e` and the next one
    by_contra hlt'
    have hle := hin.le_of_mem (show e + 1 ≤ k by omega) (Dvar.mem_elems.1 (hsub hk)).2
    omega

end

/-! ## A revision -/

section
variable {live : ℕ → Prop} {n i j : ℕ} {tuples : List (List ℤ)} {tries : Tries} {s : Store} {x y : FdTerm} {k : ℤ}

theorem acSupported_sound (hex : ExactTries n tuples tries) (hi : i < n) (hj : j < n) (hij : i ≠ j)
    (hy : ∀ r, y = .dvar r → (s r).Inv) (hk : 0 ≤ k) (hlt : k < (tries i j).length) :
    ∃ b, acSupported (tries i j) y s k = .ok b ∧ (b = true → ∃ w ∈ y.dom s, w ∈ supports tuples i j k) := by
  obtain ⟨hden, habs, hvar⟩ := hex i hi j hj hij k
  simp only [acSupported, readCell_trieCell hk hlt, bind, Except.bind]
  cases hc : trieCell (tries i j) k with
  | absent => exact ⟨false, rfl, fun h => by contradiction⟩
  | int v =>
    have hv : v ∈ supports tuples i j k := (hex.int_iff hi hj hij hc).2 rfl
    simp only [reduceCtorEq, if_false, bDmDisjointCc]
    rcases deref_inv hy with ⟨w, hd, hdom⟩ | ⟨r, -, hd, -, hinv, hdom⟩
    · simp only [hd]
      refine ⟨_, rfl, fun h => ⟨w, hdom ▸ mem_singleton_self w, ?_⟩⟩
      rw [show w = v by simpa using h]
      exact hv
    · simp only [hd, dmFalse_eq hinv.shape]
      exact ⟨_, rfl, fun h => ⟨v, hdom ▸ by simpa using h, hv⟩⟩
  | var d =>
    obtain ⟨hinv, hsusp, hiff⟩ := hex.var_iff hi hj hij hc
    simp only [reduceCtorEq, if_false, bDmDisjointCc]
    rcases deref_inv hy with ⟨w, hd, hdom⟩ | ⟨r, -, hd, hsuspy, hinvy, hdom⟩
    · simp only [hd, dmFalse_eq hinv.shape]
      exact ⟨_, rfl, fun h => ⟨w, hdom ▸ mem_singleton_self w, (hiff w).2 (by simpa using h)⟩⟩
    · obtain ⟨b, hb, -, hmeet⟩ := dmDisjoint_spec hinvy.shape hinv.shape
      simp only [hd, hb]
      refine ⟨_, rfl, fun h => ?_⟩
      obtain ⟨w, hw, hw'⟩ := hmeet (hinvy.susp hsuspy) (hinv.susp hsusp) (by simpa using h)
      exact ⟨w, hdom ▸ hw, (hiff w).2 hw'⟩

/-- The counts of the region of `x` fit. -/
def RegionFits (s : Store) (x : FdTerm) (m : ℤ) : Prop := ∀ r, x = .dvar r → (s r).OutsideFits m

theorem varorintDomainRegion_shrinks {m : ℤ} (hinv : ∀ q, live q → (s q).Inv) (hx : ∀ r, x = .dvar r → live r)
    (hfit : RegionFits s x m) :
    FailsOr (fun s' => Shrinks live x s s' ∧ ∀ k ∈ x.dom s', 0 ≤ k ∧ k ≤ m) (varorintDomainRegion s x 0 m) := by
  unfold varorintDomainRegion
  rcases deref_inv (fun r hr => hinv r (hx r hr)) with ⟨v, hd, hdom⟩ | ⟨r, rfl, hd, hsusp, hinvr, -⟩
  · simp only [hd]
    split_ifs with hout
    · exact .inl rfl
    · refine .inr ⟨s, rfl, .refl hinv, fun k hk => ?_⟩
      rw [hdom, mem_singleton] at hk
      omega
  · simp only [hd, updateM]
    rcases hinvr.regionNoint hsusp (hfit r rfl) with hfail | ⟨d', hd', hinv', hdom⟩
    · exact .inl (by simp only [hfail])
    · refine .inr ⟨update s r d', by simp only [hd'],
        .update live hinv hinv' (hdom ▸ inter_subset_left), fun k hk => ?_⟩
      simp only [FdTerm.dom, update_self, hdom] at hk
      exact mem_Icc.1 (mem_inter.1 hk).2

/-- A revision fails, or leaves `x` with values that have a support in `y`, another variable. -/
theorem excludeAcUnsupportedFromFd_shrinks (hex : ExactTries n tuples tries) (hi : i < n) (hj : j < n) (hij : i ≠ j)
    (hinv : ∀ q, live q → (s q).Inv) (hx : ∀ r, x = .dvar r → live r) (hy : ∀ r, y = .dvar r → live r)
    (hfit : RegionFits s x ((tries i j).length - 1)) :
    FailsOr (fun s' => Shrinks live x s s' ∧ ((∀ r, x = .dvar r → y ≠ .dvar r) → HasSupports tuples i j s' x y))
      (excludeAcUnsupportedFromFd s x y (tries i j)) := by
  refine (varorintDomainRegion_shrinks hinv hx hfit).bind fun s₁ ⟨hshr, hrange⟩ => ?_
  unfold excludeUnsupportedValues
  have hinv₁ := hshr.inv
  rcases deref_inv (fun r hr => hinv₁ r (hx r hr)) with ⟨v, hd, hdom⟩ | ⟨r, rfl, hd, hsusp, hinvr, hdom⟩
  · have hv := hrange v (by rw [hdom, mem_singleton])
    obtain ⟨b, hb, hsupp⟩ := acSupported_sound hex hi hj hij (fun r hr => hinv₁ r (hy r hr)) hv.1
      (show v < (tries i j).length by omega)
    simp only [hd, hb, bind, Except.bind]
    split_ifs with htrue
    · refine .inr ⟨s₁, rfl, hshr, fun _ k hk => ?_⟩
      rw [hdom, mem_singleton] at hk
      rw [hk]
      exact hsupp htrue
    · exact .inl rfl
  · simp only [hd]
    have hfirst := hrange _ (hinvr.bounds_mem_dom hsusp).1
    have hlast := hrange _ (hinvr.bounds_mem_dom hsusp).2
    have hle := hinvr.le
    refine FailsOr.mono (filterLoop_shrinks s₁ (fun k => (∀ q, FdTerm.dvar r = .dvar q → y ≠ .dvar q) →
      ∃ w ∈ y.dom s₁, w ∈ supports tuples i j k) (s₁ r).first (hx r rfl) (fun s' e hs' hfe hel => ?_) _ s₁ _
      (by push_cast; omega) ⟨.refl hinv₁, ?_, rfl, le_refl _, hle, hinvr.shape.scannedTo (by omega), ?_⟩)
      fun s' ⟨hs', hsupp⟩ => ⟨hshr.trans hs', fun hne k hk => ?_⟩
    · obtain ⟨b, hb, hsupp⟩ := acSupported_sound hex hi hj hij (fun r hr => hs'.inv r (hy r hr)) (show 0 ≤ e by omega)
        (show e < (tries i j).length by omega)
      refine ⟨b, hb, fun htrue hne => ?_⟩
      rw [← hs'.dom_eq hne]
      exact hsupp htrue
    · rw [Dvar.dom_susp hsusp]
    · intro k hk hlt
      rw [Dvar.dom_susp hsusp] at hk
      have := (Dvar.mem_elems.1 hk).1
      omega
    · rw [hs'.dom_eq hne]
      exact hsupp k hk hne

end

/-! ## One pass over all variables -/

section
variable {compVars : List FdTerm} {tuples : List (List ℤ)} {tries : Tries} {s s₁ : Store} {i : ℕ}

def PassFits (compVars : List FdTerm) (tries : Tries) (s : Store) : Prop :=
  ∀ i < compVars.length, ∀ j < compVars.length, i ≠ j → RegionFits s (compVar compVars i) ((tries i j).length - 1)

theorem PassFits.mono (h : PassFits compVars tries s) (hsub : ∀ q, (s₁ q).dom ⊆ (s q).dom) :
    PassFits compVars tries s₁ := fun i hi j hj hij r hr => (h i hi j hj hij r hr).mono (hsub r)

/-- The variable at `i` and each other variable it has been checked against. -/
def VarSupported (compVars : List FdTerm) (tuples : List (List ℤ)) (s : Store) (i j : ℕ) : Prop :=
  (∀ r, compVar compVars i = .dvar r → compVar compVars j ≠ .dvar r) →
    HasSupports tuples i j s (compVar compVars i) (compVar compVars j)

/-- The variable at `i`, checked against all others, has supported values only: the others do not change meanwhile. -/
theorem reviseVar_shrinks (hex : ExactTries compVars.length tuples tries)
    (hinv : ∀ r, FdTerm.dvar r ∈ compVars → (s r).Inv) (hfit : PassFits compVars tries s) (hi : i < compVars.length) :
    FailsOr (fun s' => Shrinks (fun r => FdTerm.dvar r ∈ compVars) (compVar compVars i) s s' ∧
      ∀ j < compVars.length, i ≠ j → VarSupported compVars tuples s' i j) (reviseVar compVars tries s i) := by
  refine FailsOr.mono (FailsOr.foldlM
    (fun s j => excludeAcUnsupportedFromFd s (compVar compVars i) (compVar compVars j) (tries i j))
    (fun done s' => Shrinks (fun r => FdTerm.dvar r ∈ compVars) (compVar compVars i) s s' ∧
      ∀ j ∈ done, VarSupported compVars tuples s' i j) _ s ⟨.refl hinv, fun j hj => by simp at hj⟩
    fun done j rest hl s₁ ⟨hshr, hdone⟩ => ?_) fun s' ⟨hshr, hall⟩ => ⟨hshr, fun j hj hij => hall j ?_⟩
  · have hmem : j ∈ (List.range compVars.length).filter fun j => i ≠ j := by
      rw [hl]
      simp
    rw [List.mem_filter, List.mem_range, decide_eq_true_eq] at hmem
    refine (excludeAcUnsupportedFromFd_shrinks hex hi hmem.1 hmem.2 hshr.inv (Compatible.live hi)
      (Compatible.live hmem.1) (hfit.mono hshr.sub i hi j hmem.1 hmem.2)).mono fun s₂ ⟨hshr', hsup⟩ => ?_
    refine ⟨hshr.trans hshr', fun j' hj' hne => ?_⟩
    rcases List.mem_append.1 hj' with hd | hd
    · exact hshr'.hasSupports hne (hdone j' hd hne)
    · obtain rfl : j' = j := List.mem_singleton.1 hd
      exact hsup hne
  · rw [List.mem_filter, List.mem_range, decide_eq_true_eq]
    exact ⟨hj, hij⟩

def PassInv (compVars : List FdTerm) (s s' : Store) : Prop :=
  (∀ r, FdTerm.dvar r ∈ compVars → (s' r).Inv) ∧ ∀ q, (s' q).dom ⊆ (s q).dom

theorem convertToBv_passInv {x : FdTerm} (h : PassInv compVars s s₁) (hx : ∀ r, x = .dvar r → FdTerm.dvar r ∈ compVars) :
    PassInv compVars s (convertToBv s₁ x) := by
  unfold convertToBv
  rcases deref_inv (fun r hr => h.1 r (hx r hr)) with ⟨v, hd, -⟩ | ⟨r, rfl, hd, -, hinv, -⟩
  · simp only [hd]
    exact h
  · simp only [hd]
    split_ifs with hit
    · have hshr := Shrinks.update (fun r => FdTerm.dvar r ∈ compVars) h.1 (itToBv_inv hinv hit.2)
        (itToBv_dom hit.2).subset
      exact ⟨hshr.inv, fun q => (hshr.sub q).trans (h.2 q)⟩
    · exact h

theorem convertToBv_fold_passInv {l : List FdTerm} (hl : ∀ x ∈ l, x ∈ compVars) (h : PassInv compVars s s₁) :
    PassInv compVars s (l.foldl convertToBv s₁) := by
  induction l generalizing s₁ with
  | nil => exact h
  | cons x l ih =>
    refine ih (fun y hy => hl y (List.mem_cons_of_mem _ hy)) (convertToBv_passInv h fun r hr => ?_)
    rw [← hr]
    exact hl x (List.mem_cons_self ..)

/-- The part of a pass up to the variable at `i`, `i` included. -/
def reviseUpTo (compVars : List FdTerm) (tries : Tries) (s : Store) (i : ℕ) : Except Stop Store :=
  (List.range (i + 1)).foldlM (reviseVar compVars tries) (compVars.foldl convertToBv s)

theorem revise_passInv (hex : ExactTries compVars.length tuples tries) (hfit : PassFits compVars tries s) {l : List ℕ}
    (hl : ∀ i ∈ l, i < compVars.length) (h : PassInv compVars s s₁) :
    FailsOr (PassInv compVars s) (l.foldlM (reviseVar compVars tries) s₁) := by
  apply FailsOr.foldlM (reviseVar compVars tries) (fun _ => PassInv compVars s) l s₁ h
  intro done i rest hl' s₂ h₂
  refine (reviseVar_shrinks hex h₂.1 (hfit.mono h₂.2) (hl i (by simp [hl']))).mono fun s₃ ⟨hshr, _⟩ => ?_
  exact ⟨hshr.inv, fun q => (hshr.sub q).trans (h₂.2 q)⟩

/-- When the variable at `i` has been revised, its values have a support in every other variable; the rest of the pass
removes values only. -/
theorem reviseUpTo_supported (hex : ExactTries compVars.length tuples tries)
    (hinv : ∀ r, FdTerm.dvar r ∈ compVars → (s r).Inv) (hfit : PassFits compVars tries s) (hi : i < compVars.length) :
    FailsOr (fun s₁ => ∀ j < compVars.length, i ≠ j → VarSupported compVars tuples s₁ i j)
        (reviseUpTo compVars tries s i) ∧
      ∀ s', bCfdRemoveAcUnsupported s compVars tries = .ok s' →
        ∃ s₁, reviseUpTo compVars tries s i = .ok s₁ ∧ ∀ q, (s' q).dom ⊆ (s₁ q).dom := by
  have h₀ : PassInv compVars s (compVars.foldl convertToBv s) :=
    convertToBv_fold_passInv (fun _ hx => hx) ⟨hinv, fun _ => Finset.Subset.refl _⟩
  have hupTo : FailsOr (fun s₁ => PassInv compVars s s₁ ∧
      ∀ j < compVars.length, i ≠ j → VarSupported compVars tuples s₁ i j) (reviseUpTo compVars tries s i) := by
    rw [reviseUpTo, List.range_succ, List.foldlM_append]
    apply (revise_passInv hex hfit (fun j hj => (List.mem_range.1 hj).trans hi) h₀).bind
    intro s₁ h₁
    rw [List.foldlM_cons]
    refine (reviseVar_shrinks hex h₁.1 (hfit.mono h₁.2) hi).bind fun s₂ ⟨hshr, hsup⟩ => ?_
    exact .inr ⟨s₂, rfl, ⟨hshr.inv, fun q => (hshr.sub q).trans (h₁.2 q)⟩, hsup⟩
  refine ⟨hupTo.mono fun s₁ h => h.2, fun s' hs' => ?_⟩
  -- the pass goes on from the store in which `i` has been revised
  obtain ⟨k, hk⟩ := Nat.exists_eq_add_of_le (show i + 1 ≤ compVars.length from hi)
  have hsplit : bCfdRemoveAcUnsupported s compVars tries =
      reviseUpTo compVars tries s i >>= (List.range' (i + 1) k).foldlM (reviseVar compVars tries) := by
    have hrange : List.range compVars.length = List.range (i + 1) ++ List.range' (i + 1) k := by
      rw [hk, List.range_eq_range', List.range_eq_range']
      simpa only [Nat.zero_add] using (@List.range'_append_1 0 (i + 1) k).symm
    rw [bCfdRemoveAcUnsupported, reviseUpTo, ← List.foldlM_append, hrange]
  rw [hsplit] at hs'
  rcases hupTo with hfail | ⟨s₁, hrun, h₁, -⟩
  · rw [hfail] at hs'
    contradiction
  refine ⟨s₁, hrun, ?_⟩
  rw [hrun] at hs'
  have hrest := revise_passInv (s := s₁) hex (hfit.mono h₁.2) (l := List.range' (i + 1) k)
    (fun j hj => by rw [List.mem_range'_1] at hj; omega) ⟨h₁.1, fun _ => Finset.Subset.refl _⟩
  rcases hrest with hfail | ⟨s₂, hs₂, h₂⟩
  · rw [show (List.range' (i + 1) k).foldlM (reviseVar compVars tries) s₁ = .ok s' from hs'] at hfail
    contradiction
  · obtain rfl : s₂ = s' := Except.ok.inj (hs₂.symm.trans hs')
    exact h₂.2

theorem bCfdDom_unsupported (s : Store) {ex : ℤ} (x y : FdTerm) {trieXy : List Support} (trieYx : List Support)
    (h : trieCell trieXy ex = .absent) :
    bCfdDom s x ex y trieXy trieYx = .error .oob ∨ bCfdDom s x ex y trieXy trieYx = .ok s := by
  unfold bCfdDom
  cases deref s x with
  | int v => exact .inr rfl
  | dvar rx =>
    cases deref s y with
    | int v => exact .inr rfl
    | dvar ry =>
      refine .inl ?_
      by_cases hin : 0 ≤ ex ∧ ex < trieXy.length
      · simp only [readCell_trieCell hin.1 hin.2, h, bind, Except.bind, cfdDomElms]
      · have hread : readCell trieXy ex = .error .oob := by
          unfold readCell
          split_ifs with hneg
          · rfl
          · rw [List.getElem?_eq_none (by omega)]
        simp only [hread, bind, Except.bind]

end

/-! ## The propagators -/

/-- With tries that store the exact supports, no propagator of a table constraint removes a value of a compatible tuple, or
fails while there is one; and when the pass over all variables has revised one of them, each of its values has a support in
the domain that each other variable has then. -/
theorem tablePropagators_spec (compVars : List FdTerm) (tuples : List (List ℤ)) (tries : Tries) (s : Store)
    (hex : ExactTries compVars.length tuples tries) :
    (∀ sol t, Compatible compVars tuples s sol t →
      (∃ s', bCfdRemoveAcUnsupported s compVars tries = .ok s' ∧ Preserves sol s s' ∧
        Compatible compVars tuples s' sol t) ∧
      ∀ i < compVars.length, ∀ j < compVars.length, i ≠ j → (∀ vx, deref s (compVar compVars i) = .int vx →
          ∃ s', bCfdIns s (compVar compVars i) (compVar compVars j) (tries i j) = .ok s' ∧ Preserves sol s s' ∧
            Compatible compVars tuples s' sol t) ∧
        ∀ ex, (supports tuples i j ex = ∅ ∧
            bCfdDom s (compVar compVars i) ex (compVar compVars j) (tries i j) (tries j i) = .error .oob) ∨
          ∃ s', bCfdDom s (compVar compVars i) ex (compVar compVars j) (tries i j) (tries j i) = .ok s' ∧
            Preserves sol s s' ∧ Compatible compVars tuples s' sol t) ∧
    ((∀ r, FdTerm.dvar r ∈ compVars → (s r).Inv) → PassFits compVars tries s → ∀ i < compVars.length,
      FailsOr (fun s₁ => ∀ j < compVars.length, i ≠ j → VarSupported compVars tuples s₁ i j)
        (reviseUpTo compVars tries s i) ∧
      ∀ s', bCfdRemoveAcUnsupported s compVars tries = .ok s' →
        ∃ s₁, reviseUpTo compVars tries s i = .ok s₁ ∧ ∀ q, (s' q).dom ⊆ (s₁ q).dom) := by
  refine ⟨fun sol t h => ⟨?_, fun i hi j hj hij => ⟨fun vx hvx => ?_, fun ex => ?_⟩⟩, fun hinv hfit i hi =>
    reviseUpTo_supported hex hinv hfit hi⟩
  · obtain ⟨s', hrun, hk⟩ := bCfdRemoveAcUnsupported_kept hex h
    exact ⟨s', hrun, hk.preserves, h.of_kept hk⟩
  · obtain ⟨s', hrun, hk⟩ := bCfdIns_kept hex h hi hj hij hvx
    exact ⟨s', hrun, hk.preserves, h.of_kept hk⟩
  · rcases (supports tuples i j ex).eq_empty_or_nonempty with hempty | ⟨v, hv⟩
    · rcases bCfdDom_unsupported s (compVar compVars i) (compVar compVars j) (tries j i)
        ((hex i hi j hj hij ex).2.1.2 hempty) with hoob | hok
      · exact .inl ⟨hempty, hoob⟩
      · exact .inr ⟨s, hok, h.kept.preserves, h⟩
    · obtain ⟨s', hrun, hk⟩ := bCfdDom_kept hex h hi hj hij hv
      exact .inr ⟨s', hrun, hk.preserves, h.of_kept hk⟩

def threeTuples : List (List ℤ) := [[1, 1, 1], [2, 2, 2], [2, 3, 1]]

theorem threeTuples_compatible : Compatible [.dvar 0, .dvar 1, .int 1] threeTuples (fun _ => auxCreateDomainVar 1 2)
    (fun _ => 1) [1, 1, 1] := by
  refine ⟨by decide, fun i hi => ?_, fun r _ => ?_⟩
  · have hi' : i < 3 := hi
    interval_cases i <;> rfl
  · have hinv : (auxCreateDomainVar 1 2).Inv := auxCreateDomainVar_inv (by decide)
    refine ⟨hinv.shape, (hinv.exact rfl).enough, ?_, fun w hw => by simp [auxCreateDomainVar] at hw⟩
    rw [auxCreateDomainVar_elems]
    decide

theorem tablePropagators_three :
    ∃ tries, bCfdBuildTriesIn (fun _ => 0) [2, 3, 2] threeTuples (freshTries [2, 3, 2]) = .ok tries ∧
      ∃ s', bCfdRemoveAcUnsupported (fun _ => auxCreateDomainVar 1 2) [.dvar 0, .dvar 1, .int 1] tries = .ok s' ∧
        Preserves (fun _ => 1) (fun _ => auxCreateDomainVar 1 2) s' := by
  obtain ⟨tries, hbuild, -, hex⟩ := bCfdBuildTriesIn_shape (fun _ => 0) [2, 3, 2] threeTuples
    ⟨by decide, by decide, by decide, by decide⟩
  obtain ⟨s', hrun, hpres, -⟩ := ((tablePropagators_spec [.dvar 0, .dvar 1, .int 1] threeTuples tries _ hex).1 _ _
    threeTuples_compatible).1
  exact ⟨tries, hbuild, s', hrun, hpres⟩

/-- After the whole pass the first variable still has the value 2, whose only supports for the second one are 2 and 3, and
the second one is bound to 1. -/
theorem bCfdRemoveAcUnsupported_onePass :
    ∃ tries, bCfdBuildTriesIn (fun _ => 0) [2, 3, 2] threeTuples (freshTries [2, 3, 2]) = .ok tries ∧
      ExactTries 3 threeTuples tries ∧
      ∃ s', bCfdRemoveAcUnsupported (fun _ => auxCreateDomainVar 1 2) [.dvar 0, .dvar 1, .int 1] tries = .ok s' ∧
        ¬ HasSupports threeTuples 0 1 s' (.dvar 0) (.dvar 1) := by
  obtain ⟨tries, hbuild, -, hex⟩ := bCfdBuildTriesIn_shape (fun _ => 0) [2, 3, 2] threeTuples
    ⟨by decide, by decide, by decide, by decide⟩
  refine ⟨tries, hbuild, hex, ?_⟩
  have hrun : (do
      let tries ← bCfdBuildTriesIn (fun _ => 0) [2, 3, 2] threeTuples (freshTries [2, 3, 2])
      let s ← bCfdRemoveAcUnsupported (fun _ => auxCreateDomainVar 1 2) [.dvar 0, .dvar 1, .int 1] tries
      return (s 0, s 1)) = Except.ok (auxCreateDomainVar 1 2, assignDvar (auxCreateDomainVar 1 2) 1) := by
    decide +kernel
  simp only [hbuild, bind, Except.bind, pure, Except.pure] at hrun
  cases hs' : bCfdRemoveAcUnsupported (fun _ => auxCreateDomainVar 1 2) [.dvar 0, .dvar 1, .int 1] tries with
  | error stop => simp [hs'] at hrun
  | ok s' =>
    simp only [hs', Except.ok.injEq, Prod.mk.injEq] at hrun
    refine ⟨s', rfl, fun hsup => ?_⟩
    obtain ⟨w, hw, hsw⟩ := hsup 2 (by
      simp only [FdTerm.dom, hrun.1]
      rw [Dvar.dom_susp rfl, auxCreateDomainVar_elems]
      decide)
    simp only [FdTerm.dom, hrun.2] at hw
    rw [Dvar.dom_int rfl, mem_singleton] at hw
    subst hw
    revert hsw
    decide

end Picat
