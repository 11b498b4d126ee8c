import Picat.Domain.Include
import Picat.Table.Tries

/-!
# The propagators of a positive table constraint

The three routines of `cfd.c` that narrow the variables of a table constraint by its tries.
A free variable in a trie where the source expects a support makes `DEREF_NONVAR` run for ever; it is `Stop.oob` here.

* `excludeAcUnsupportedFromFd_kept`, `bCfdRemoveAcUnsupported_kept`, `bCfdIns_kept`, `bCfdDom_kept` : each propagator
  returns, and every variable still has its value of the tuple.
-/

namespace Picat

open Function List

/-! ## Revising one variable -/

def varorintDomainRegion (s : Store) (x : FdTerm) (from' to' : ℤ) : Except Stop Store :=
  match deref s x with
  | .int v => if v < from' ∨ v > to' then .error .fail else .ok s
  | .dvar r => updateM s r fun d => domainRegionNoint d from' to'

/-- `b_DM_DISJOINT_cc`, where the second argument is a support. -/
def bDmDisjointCc (s : Store) (var1 : FdTerm) (var2 : Support) : Except Stop Bool :=
  match deref s var1, var2 with
  | _, .absent => .error .oob
  | .dvar r, .var d2 => dmDisjoint (s r) d2
  | .dvar r, .int v2 => dmFalse (s r) v2
  | .int v1, .var d2 => dmFalse d2 v1
  | .int v1, .int v2 => .ok (v1 ≠ v2)

/-- The test of the value `k`: the opposite of `(!ISINT(Sk) && !IS_SUSP_VAR(Sk)) || b_DM_DISJOINT_cc(Y, Sk)`. -/
def acSupported (trieXy : List Support) (y : FdTerm) (s : Store) (k : ℤ) : Except Stop Bool := do
  let sk ← readCell trieXy k
  if sk = .absent then return false
  else do
    let b ← bDmDisjointCc s y sk
    return !b

/-- The values of a bound variable, or of a domain variable, that have no support are excluded. -/
def excludeUnsupportedValues (s : Store) (x y : FdTerm) (trieXy : List Support) : Except Stop Store :=
  match deref s x with
  | .int k => do
      if ← acSupported trieXy y s k then return s else .error .fail
  | .dvar r => filterDomain domainSetFalseAux false (acSupported trieXy y) r s

def excludeAcUnsupportedFromFd (s : Store) (x y : FdTerm) (trieXy : List Support) : Except Stop Store := do
  let s ← varorintDomainRegion s x 0 (trieXy.length - 1)
  excludeUnsupportedValues s x y trieXy

/-! ## One pass over all variables -/

/-- The argument at position `i`. -/
def compVar (compVars : List FdTerm) (i : ℕ) : FdTerm := compVars.getD i (.int 0)

/-- The first loop of `b_CFD_REMOVE_AC_UNSUPPORTED`: an interval with more than two elements becomes a vector. -/
def convertToBv (s : Store) (x : FdTerm) : Store :=
  match deref s x with
  | .int _ => s
  | .dvar r => if (s r).size ≠ 2 ∧ (s r).type = .it then update s r (itToBv (s r)) else s

/-- The inner loop of `b_CFD_REMOVE_AC_UNSUPPORTED`: the variable at `i` is checked against all others. -/
def reviseVar (compVars : List FdTerm) (tries : Tries) (s : Store) (i : ℕ) : Except Stop Store :=
  ((List.range compVars.length).filter fun j => i ≠ j).foldlM
    (fun s j => excludeAcUnsupportedFromFd s (compVar compVars i) (compVar compVars j) (tries i j)) s

def bCfdRemoveAcUnsupported (s : Store) (compVars : List FdTerm) (tries : Tries) : Except Stop Store :=
  (List.range compVars.length).foldlM (reviseVar compVars tries) (compVars.foldl convertToBv s)

/-! ## The events of a variable -/

def bCfdIns (s : Store) (x y : FdTerm) (trieXy : List Support) : Except Stop Store :=
  match deref s x with
  | .dvar _ => .error .oob
  | .int vx => do
      let sx ← readCell trieXy vx
      match deref s y, sx with
      | _, .absent => .error .oob
      | .int vy, .int v => if vy = v then return s else .error .fail
      | .int vy, .var d => if ← dmTrue d vy then return s else .error .fail
      | .dvar r, .int v =>
        if ← dmTrue (s r) v then return update s r (assignDvar (s r) v) else .error .fail
      | .dvar r, .var d => updateM s r fun dy => dmIntersect dy d

/-- The test of the support of an element of `Y` against the domain of `X`. -/
def lostSupport (dx : Dvar) (sy : Support) : Except Stop Bool :=
  match sy with
  | .absent => .error .oob
  | .int v => dmFalse dx v
  | .var d => dmDisjoint dx d

/-- The body of the loop of `b_CFD_DOM`. -/
def cfdDomElm (rx ry : ℕ) (trieYx : List Support) (s : Store) (y : ℤ) : Except Stop Store := do
  if ← dmTrue (s ry) y then do
    let sy ← readCell trieYx y
    if ← lostSupport (s rx) sy then updateM s ry fun d => domainSetFalseAux d y else return s
  else return s

/-- The loop of `b_CFD_DOM` over the elements of a support. -/
def cfdDomLoop (rx ry : ℕ) (trieYx : List Support) (sx : Dvar) : ℕ → Store → ℤ → Except Stop Store
  | 0, _, _ => .error .oob
  | fuel + 1, s, y => do
      let s ← cfdDomElm rx ry trieYx s y
      if y = sx.last then return s
      else do
        let y ← nextElm sx y
        cfdDomLoop rx ry trieYx sx fuel s y

def cfdDomElms (s : Store) (rx ry : ℕ) (trieYx : List Support) (sx : Support) : Except Stop Store :=
  match sx with
  | .absent => .error .oob
  | .int v => cfdDomElm rx ry trieYx s v
  | .var d => cfdDomLoop rx ry trieYx d ((d.last - d.first).toNat + 1) s d.first

def bCfdDom (s : Store) (x : FdTerm) (ex : ℤ) (y : FdTerm) (trieXy trieYx : List Support) : Except Stop Store :=
  match deref s x, deref s y with
  | .int _, _ => .ok s
  | .dvar _, .int _ => .ok s
  | .dvar rx, .dvar ry => do
      let sx ← readCell trieXy ex
      cfdDomElms s rx ry trieYx sx

open BitScan

/-! ## Exact supports -/

def ExactTries (n : ℕ) (tuples : List (List ℤ)) (tries : Tries) : Prop :=
  ∀ i < n, ∀ j < n, i ≠ j → ∀ k : ℤ, (trieCell (tries i j) k).denotes = supports tuples i j k ∧
    (trieCell (tries i j) k = .absent ↔ supports tuples i j k = ∅) ∧
    ∀ d, trieCell (tries i j) k = .var d → d.Inv ∧ d.var = .susp

/-- A tuple of the table, and a valuation of the variables under which the constraint is that tuple and that the
domains allow. -/
structure Compatible (compVars : List FdTerm) (tuples : List (List ℤ)) (s : Store) (sol : ℕ → ℤ) (t : List ℤ) : Prop where
  mem : t ∈ tuples
  val : ∀ i < compVars.length, (compVar compVars i).val sol = t.getD i 0
  keeps : ∀ r, FdTerm.dvar r ∈ compVars → Keeps (s r) (sol r)

section
variable {n i j : ℕ} {tuples : List (List ℤ)} {tries : Tries} {k v : ℤ}

theorem supports_symm : v ∈ supports tuples i j k ↔ k ∈ supports tuples j i v := by
  simp only [mem_supports]
  exact exists_congr fun t => and_congr_right fun _ => and_comm

theorem readCell_of_trieCell {trie : List Support} (h : trieCell trie k ≠ .absent) :
    readCell trie k = .ok (trieCell trie k) ∧ 0 ≤ k ∧ k < trie.length := by
  have hk : 0 ≤ k := by
    by_contra hk
    exact h (by rw [trieCell, if_pos (by omega)])
  have hlt : k < trie.length := by
    by_contra hlt
    rw [trieCell_eq hk, getD_eq_default _ _ (by omega)] at h
    exact h rfl
  exact ⟨by rw [readCell_eq hk hlt .absent, trieCell_eq hk], hk, hlt⟩

theorem readCell_trieCell {trie : List Support} (hk : 0 ≤ k) (hlt : k < trie.length) :
    readCell trie k = .ok (trieCell trie k) := by
  rw [readCell_eq hk hlt .absent, trieCell_eq hk]

namespace ExactTries

theorem cell (h : ExactTries n tuples tries) (hi : i < n) (hj : j < n) (hij : i ≠ j) (hv : v ∈ supports tuples i j k) :
    readCell (tries i j) k = .ok (trieCell (tries i j) k) ∧ trieCell (tries i j) k ≠ .absent ∧
      (0 ≤ k ∧ k < (tries i j).length) := by
  have hne : trieCell (tries i j) k ≠ .absent := fun habs => by
    rw [(h i hi j hj hij k).2.1.1 habs] at hv
    simp at hv
  obtain ⟨hread, hk⟩ := readCell_of_trieCell hne
  exact ⟨hread, hne, hk⟩

theorem int_iff {w : ℤ} (h : ExactTries n tuples tries) (hi : i < n) (hj : j < n) (hij : i ≠ j)
    (hc : trieCell (tries i j) k = .int w) : v ∈ supports tuples i j k ↔ v = w := by
  rw [← (h i hi j hj hij k).1, hc]
  exact Finset.mem_singleton

theorem var_iff {d : Dvar} (h : ExactTries n tuples tries) (hi : i < n) (hj : j < n) (hij : i ≠ j)
    (hc : trieCell (tries i j) k = .var d) : d.Inv ∧ d.var = .susp ∧ ∀ v, v ∈ supports tuples i j k ↔ v ∈ d.elems := by
  obtain ⟨hden, -, hvar⟩ := h i hi j hj hij k
  obtain ⟨hinv, hsusp⟩ := hvar d hc
  refine ⟨hinv, hsusp, fun v => ?_⟩
  rw [← hden, hc, ← Dvar.dom_susp hsusp]
  rfl

end ExactTries

end

section
variable {live : ℕ → Prop} {s₀ s : Store} {sol : ℕ → ℤ} {x y : FdTerm} {v w : ℤ}

theorem deref_cases (hx : ∀ r, x = .dvar r → Keeps (s r) (sol r)) (hval : x.val sol = v) :
    deref s x = .int v ∨ ∃ r, x = .dvar r ∧ deref s x = .dvar r ∧ Keeps (s r) v := by
  cases x with
  | int k => exact .inl (by rw [← hval]; rfl)
  | dvar r =>
    have hk := hx r rfl
    obtain rfl : sol r = v := hval
    cases hvar : (s r).var with
    | int k => exact .inl (by simp only [deref, hvar, hk.bound k hvar])
    | susp => exact .inr ⟨r, rfl, by simp only [deref, hvar], hk⟩
    | ref p => exact .inr ⟨r, rfl, by simp only [deref, hvar], hk⟩

/-- The test of disjointness returns, and not with true when there is a common element. -/
theorem bDmDisjointCc_spec {c : Support} (hy : ∀ r, y = .dvar r → Keeps (s r) (sol r)) (hval : y.val sol = w)
    (hne : c ≠ .absent) (hvar : ∀ d, c = .var d → d.Inv ∧ d.var = .susp) :
    ∃ b, bDmDisjointCc s y c = .ok b ∧ (w ∈ c.denotes → b = false) := by
  unfold bDmDisjointCc
  rcases deref_cases hy hval with hd | ⟨r, -, hd, hk⟩
  · simp only [hd]
    cases c with
    | absent => contradiction
    | int k => exact ⟨_, rfl, fun hw => decide_eq_false fun hne => hne (Finset.mem_singleton.1 hw)⟩
    | var d =>
      obtain ⟨hinv, hsusp⟩ := hvar d rfl
      refine ⟨_, dmFalse_eq hinv.shape w, fun hw => decide_eq_false fun hout => hout ?_⟩
      rwa [Support.denotes, Dvar.dom_susp hsusp] at hw
  · simp only [hd]
    cases c with
    | absent => contradiction
    | int k =>
      refine ⟨_, dmFalse_eq hk.shape k, fun hw => decide_eq_false fun hout => hout ?_⟩
      rw [← Finset.mem_singleton.1 hw]
      exact hk.mem
    | var d =>
      obtain ⟨hinv, hsusp⟩ := hvar d rfl
      obtain ⟨b, hb, hdis, -⟩ := dmDisjoint_spec hk.shape hinv.shape
      refine ⟨b, hb, fun hw => Bool.eq_false_iff.2 fun htrue => hdis htrue w ⟨hk.mem, ?_⟩⟩
      rwa [Support.denotes, Dvar.dom_susp hsusp] at hw

end

section
variable {n i j : ℕ} {tuples : List (List ℤ)} {tries : Tries} {live : ℕ → Prop} {s₀ s : Store} {sol : ℕ → ℤ}
  {x y : FdTerm} {k v w : ℤ}

theorem acSupported_spec (hx : ExactTries n tuples tries) (hi : i < n) (hj : j < n) (hij : i ≠ j)
    (hy : ∀ r, y = .dvar r → Keeps (s r) (sol r)) (hval : y.val sol = w) (hk : 0 ≤ k) (hlt : k < (tries i j).length) :
    ∃ b, acSupported (tries i j) y s k = .ok b ∧ (w ∈ supports tuples i j k → b = true) := by
  obtain ⟨hden, habs, hvar⟩ := hx i hi j hj hij k
  simp only [acSupported, readCell_trieCell hk hlt, bind, Except.bind]
  by_cases hne : trieCell (tries i j) k = .absent
  · rw [if_pos hne]
    refine ⟨false, rfl, fun hw => ?_⟩
    rw [habs.1 hne] at hw
    simp at hw
  · rw [if_neg hne]
    obtain ⟨b, hb, hfalse⟩ := bDmDisjointCc_spec hy hval hne hvar
    refine ⟨!b, by simp only [hb]; rfl, fun hw => ?_⟩
    rw [hfalse (hden ▸ hw)]
    rfl

theorem varorintDomainRegion_kept (h : Kept live sol s₀ s) (hx : ∀ r, x = .dvar r → live r) (hval : x.val sol = v)
    {f t : ℤ} (hf : f ≤ v) (ht : v ≤ t) :
    ∃ s', varorintDomainRegion s x f t = .ok s' ∧ Kept live sol s₀ s' ∧
      ∀ r, deref s' x = .dvar r → f ≤ (s' r).first ∧ (s' r).last ≤ t := by
  unfold varorintDomainRegion
  rcases deref_cases (fun r hr => h.keeps r (hx r hr)) hval with hd | ⟨r, rfl, hd, hk⟩
  · simp only [hd]
    rw [if_neg (by omega)]
    exact ⟨s, rfl, h, fun r hr => by simp [hd] at hr⟩
  · simp only [hd]
    have hv : v ∈ (s r).elems ∩ Finset.Icc f t := Finset.mem_inter.2 ⟨hk.mem, Finset.mem_Icc.2 ⟨hf, ht⟩⟩
    obtain ⟨d', hd', hn⟩ := domainRegionNoint_narrowed hk.shape hk.enough ⟨v, hv⟩
    have hk' := hk.of_narrowed hn hv
    obtain rfl : sol r = v := hval
    refine ⟨update s r d', by simp only [updateM, hd'], h.update (hx r rfl) hk', fun q hq => ?_⟩
    obtain rfl : r = q := by
      simp only [deref, update_self] at hq
      split at hq
      · contradiction
      · exact FdTerm.dvar.inj hq
    rw [update_self]
    cases hn with
    | updated hvar hcs hrange hshape helems henough hexact =>
      have h1 := hshape.first_mem_elems
      have h2 := hshape.last_mem_elems
      rw [helems, Finset.mem_inter, Finset.mem_Icc] at h1 h2
      exact ⟨h1.2.1, h2.2.2⟩
    | assigned hS hexact => simp [deref, assignDvar, update_self] at hq

theorem excludeAcUnsupportedFromFd_kept (hex : ExactTries n tuples tries) (hi : i < n) (hj : j < n) (hij : i ≠ j)
    (h : Kept live sol s₀ s) (hx : ∀ r, x = .dvar r → live r) (hy : ∀ r, y = .dvar r → live r)
    (hvx : x.val sol = v) (hvy : y.val sol = w) (hw : w ∈ supports tuples i j v) :
    ∃ s', excludeAcUnsupportedFromFd s x y (tries i j) = .ok s' ∧ Kept live sol s₀ s' := by
  obtain ⟨-, -, hv0, hvlt⟩ := hex.cell hi hj hij hw
  obtain ⟨s₁, hrun₁, h₁, hbounds⟩ := varorintDomainRegion_kept h hx hvx hv0 (show v ≤ (tries i j).length - 1 by omega)
  simp only [excludeAcUnsupportedFromFd, hrun₁, bind, Except.bind, excludeUnsupportedValues]
  rcases deref_cases (fun r hr => h₁.keeps r (hx r hr)) hvx with hd | ⟨r, rfl, hd, hk⟩
  · obtain ⟨b, hb, htrue⟩ := acSupported_spec hex hi hj hij (fun r hr => h₁.keeps r (hy r hr)) hvy hv0 hvlt
    simp only [hd, hb, htrue hw, if_true]
    exact ⟨s₁, rfl, h₁⟩
  · simp only [hd]
    obtain ⟨hfirst, hlast⟩ := hbounds r hd
    have hle := hk.shape.le
    obtain rfl : sol r = v := hvx
    refine filterDomain_kept (P := fun _ e => 0 ≤ e) (hx r rfl) domainSetFalseAux_excludes h₁ hfirst
      (fun s e hhead he => ?_) (fun s e b d' e' hhead he _ _ hround => ?_)
    · have hel := hhead.le
      obtain ⟨b, hb, htrue⟩ := acSupported_spec hex hi hj hij (fun r hr => hhead.kept.keeps r (hy r hr)) hvy he
        (show e < (tries i j).length by omega)
      exact ⟨b, hb, fun heq => htrue (heq ▸ hw)⟩
    · have hlt := hround.lt
      exact he.trans hlt.le

end

/-! ## The propagators -/

section
variable {n i j : ℕ} {compVars : List FdTerm} {tuples : List (List ℤ)} {tries : Tries} {s₀ s : Store} {sol : ℕ → ℤ}
  {t : List ℤ} {ex : ℤ}

theorem compVar_mem (hi : i < compVars.length) : compVar compVars i ∈ compVars := by
  rw [compVar, getD_eq_getElem _ _ hi]
  exact getElem_mem hi

namespace Compatible

theorem kept (h : Compatible compVars tuples s sol t) : Kept (fun r => FdTerm.dvar r ∈ compVars) sol s s :=
  ⟨h.keeps, fun _ _ => rfl⟩

theorem of_kept (h : Compatible compVars tuples s sol t) {s' : Store}
    (hk : Kept (fun r => FdTerm.dvar r ∈ compVars) sol s s') : Compatible compVars tuples s' sol t :=
  ⟨h.mem, h.val, hk.keeps⟩

theorem live (hi : i < compVars.length) : ∀ r, compVar compVars i = .dvar r → FdTerm.dvar r ∈ compVars :=
  fun _ hr => hr ▸ compVar_mem hi

theorem supported (h : Compatible compVars tuples s sol t) (hi : i < compVars.length) (hj : j < compVars.length) :
    (compVar compVars j).val sol ∈ supports tuples i j ((compVar compVars i).val sol) := by
  rw [h.val i hi, h.val j hj]
  exact mem_supports.2 ⟨t, h.mem, rfl, rfl⟩

end Compatible

theorem convertToBv_kept {x : FdTerm} {live : ℕ → Prop} (h : Kept live sol s₀ s) (hx : ∀ r, x = .dvar r → live r) :
    Kept live sol s₀ (convertToBv s x) := by
  unfold convertToBv
  rcases deref_cases (fun r hr => h.keeps r (hx r hr)) rfl with hd | ⟨r, rfl, hd, hk⟩
  · simp only [hd]
    exact h
  · simp only [hd]
    split_ifs with hit
    · exact h.update (hx r rfl) (itToBv_keeps hk hit.2)
    · exact h

theorem convertToBv_fold_kept {live : ℕ → Prop} (h : Kept live sol s₀ s) (hlive : ∀ r, FdTerm.dvar r ∈ compVars → live r) :
    Kept live sol s₀ (compVars.foldl convertToBv s) := by
  induction compVars generalizing s with
  | nil => exact h
  | cons x xs ih =>
    refine ih (convertToBv_kept h fun r hr => hlive r ?_) fun r hr => hlive r (mem_cons_of_mem _ hr)
    rw [hr]
    exact mem_cons_self ..

theorem bCfdRemoveAcUnsupported_kept (hex : ExactTries compVars.length tuples tries)
    (h : Compatible compVars tuples s sol t) :
    ∃ s', bCfdRemoveAcUnsupported s compVars tries = .ok s' ∧ Kept (fun r => FdTerm.dvar r ∈ compVars) sol s s' := by
  refine Loops.exists_foldlM (reviseVar compVars tries)
    (fun _ s' => Kept (fun r => FdTerm.dvar r ∈ compVars) sol s s') _ _
    (convertToBv_fold_kept h.kept fun _ hr => hr) fun done i rest hl s₁ h₁ => ?_
  have hi : i < compVars.length := mem_range.1 (by simp [hl])
  refine Loops.exists_foldlM
    (fun s j => excludeAcUnsupportedFromFd s (compVar compVars i) (compVar compVars j) (tries i j))
    (fun _ s' => Kept (fun r => FdTerm.dvar r ∈ compVars) sol s s') _ _ h₁ fun done' j rest' hl' s₂ h₂ => ?_
  have hmem : j ∈ (List.range compVars.length).filter fun j => i ≠ j := by
    rw [hl']
    simp
  rw [mem_filter, mem_range, decide_eq_true_eq] at hmem
  exact excludeAcUnsupportedFromFd_kept hex hi hmem.1 hmem.2 h₂ (Compatible.live hi) (Compatible.live hmem.1) rfl rfl
    (h.supported hi hmem.1)

theorem Keeps.assign {d : Dvar} {v : ℤ} (h : Keeps d v) : Keeps (assignDvar d v) v :=
  ⟨⟨h.shape.le, h.shape.first_mem, h.shape.last_mem, h.shape.filled⟩, h.enough, h.mem, fun _ hw => (DvVar.int.inj hw).symm⟩

theorem bCfdIns_kept {vx : ℤ} (hex : ExactTries compVars.length tuples tries) (h : Compatible compVars tuples s sol t)
    (hi : i < compVars.length) (hj : j < compVars.length) (hij : i ≠ j) (hx : deref s (compVar compVars i) = .int vx) :
    ∃ s', bCfdIns s (compVar compVars i) (compVar compVars j) (tries i j) = .ok s' ∧
      Kept (fun r => FdTerm.dvar r ∈ compVars) sol s s' := by
  have hval : (compVar compVars i).val sol = vx := by
    rcases deref_cases (fun r hr => h.keeps r (Compatible.live hi r hr)) rfl with hd | ⟨r, -, hd, -⟩
    · exact FdTerm.int.inj (hd.symm.trans hx)
    · rw [hd] at hx
      contradiction
  have hw := hval ▸ h.supported hi hj
  obtain ⟨hread, hne, -⟩ := hex.cell hi hj hij hw
  simp only [bCfdIns, hx, hread, bind, Except.bind]
  rcases deref_cases (fun r hr => h.keeps r (Compatible.live hj r hr)) rfl with hd | ⟨r, hr, hd, hk⟩
  · simp only [hd]
    cases hc : trieCell (tries i j) vx with
    | absent => contradiction
    | int v =>
      simp only [(hex.int_iff hi hj hij hc).1 hw, if_true]
      exact ⟨s, rfl, h.kept⟩
    | var d =>
      obtain ⟨hinv, -, hiff⟩ := hex.var_iff hi hj hij hc
      simp only [dmTrue_eq hinv.shape, decide_eq_true ((hiff _).1 hw), if_true]
      exact ⟨s, rfl, h.kept⟩
  · simp only [hd]
    have hlive := Compatible.live hj r hr
    rw [hr] at hk hw
    cases hc : trieCell (tries i j) vx with
    | absent => contradiction
    | int v =>
      rw [(hex.int_iff hi hj hij hc).1 hw] at hk
      simp only [hk.dmTrue, if_true]
      refine ⟨_, rfl, h.kept.update hlive ?_⟩
      rw [show sol r = v from (hex.int_iff hi hj hij hc).1 hw]
      exact hk.assign
    | var d =>
      obtain ⟨hinv, -, hiff⟩ := hex.var_iff hi hj hij hc
      exact h.kept.updateM hlive (dmIntersect_keeps hk hinv.shape ((hiff _).1 hw))

/-- One element of a support: it is excluded when the domain of `X` has none of its supports, and the value of a
compatible tuple has one. -/
theorem cfdDomElm_kept {live : ℕ → Prop} {rx ry : ℕ} {y v : ℤ} (hex : ExactTries n tuples tries) (hi : i < n) (hj : j < n)
    (hij : i ≠ j) (h : Kept live sol s₀ s) (hrx : live rx) (hry : live ry) (hsup : sol ry ∈ supports tuples i j (sol rx))
    (hy : v ∈ supports tuples j i y) :
    ∃ s', cfdDomElm rx ry (tries j i) s y = .ok s' ∧ Kept live sol s₀ s' := by
  have hkx := h.keeps rx hrx
  have hky := h.keeps ry hry
  simp only [cfdDomElm, dmTrue_eq hky.shape, bind, Except.bind]
  split_ifs with hmem
  · obtain ⟨hread, hne, -⟩ := hex.cell hj hi (Ne.symm hij) hy
    simp only [hread]
    obtain ⟨b, hb, hfalse⟩ : ∃ b, lostSupport (s rx) (trieCell (tries j i) y) = .ok b ∧ (sol ry = y → b = false) := by
      unfold lostSupport
      cases hc : trieCell (tries j i) y with
      | absent => contradiction
      | int w =>
        refine ⟨_, dmFalse_eq hkx.shape w, fun heq => decide_eq_false fun hout => hout ?_⟩
        rw [← (hex.int_iff hj hi (Ne.symm hij) hc).1 (heq ▸ supports_symm.1 hsup)]
        exact hkx.mem
      | var d =>
        obtain ⟨hinv, -, hiff⟩ := hex.var_iff hj hi (Ne.symm hij) hc
        obtain ⟨b, hb, hdis, -⟩ := dmDisjoint_spec hkx.shape hinv.shape
        refine ⟨b, hb, fun heq => Bool.eq_false_iff.2 fun htrue => hdis htrue (sol rx) ⟨hkx.mem, ?_⟩⟩
        exact (hiff _).1 (heq ▸ supports_symm.1 hsup)
    simp only [hb]
    split_ifs with hlost
    · obtain ⟨d', hd', hk', -⟩ := hky.setFalseAux (e := y) fun heq => by simp [hfalse heq] at hlost
      exact h.updateM hry ⟨d', hd', hk'⟩
    · exact ⟨s, rfl, h⟩
  · exact ⟨s, rfl, h⟩

theorem cfdDomLoop_kept {live : ℕ → Prop} {rx ry : ℕ} {sx : Dvar} (hex : ExactTries n tuples tries) (hi : i < n)
    (hj : j < n) (hij : i ≠ j) (hrx : live rx) (hry : live ry) (hsup : sol ry ∈ supports tuples i j (sol rx))
    (hsx : sx.Shape) (hc : ∀ y ∈ sx.elems, y ∈ supports tuples i j ex) :
    ∀ (fuel : ℕ) (s : Store) (y : ℤ), sx.last - y < fuel → y ∈ sx.elems → Kept live sol s₀ s →
      ∃ s', cfdDomLoop rx ry (tries j i) sx fuel s y = .ok s' ∧ Kept live sol s₀ s' := by
  intro fuel
  induction fuel with
  | zero =>
    intro s y hlt hy
    have := (Dvar.mem_elems.1 hy).1
    omega
  | succ fuel ih =>
    intro s y hlt hy h
    obtain ⟨s₁, hrun, h₁⟩ := cfdDomElm_kept hex hi hj hij h hrx hry hsup (supports_symm.1 (hc y hy))
    simp only [cfdDomLoop, hrun, bind, Except.bind]
    by_cases hlast : y = sx.last
    · rw [if_pos hlast]
      exact ⟨s₁, rfl, h₁⟩
    rw [if_neg hlast]
    have hyb := (Dvar.mem_elems.1 hy).1
    obtain ⟨e, he, hin, hel⟩ := nextElm_eq hsx (show sx.first ≤ y + 1 by omega) (show y < sx.last by omega)
    have hge := hin.le
    simp only [he]
    exact ih s₁ e (by push_cast at hlt; omega) (Dvar.mem_elems.2 ⟨⟨by omega, hel⟩, hin.mem⟩) h₁

theorem bCfdDom_kept (hex : ExactTries compVars.length tuples tries) (h : Compatible compVars tuples s sol t)
    (hi : i < compVars.length) (hj : j < compVars.length) (hij : i ≠ j) {v : ℤ} (hv : v ∈ supports tuples i j ex) :
    ∃ s', bCfdDom s (compVar compVars i) ex (compVar compVars j) (tries i j) (tries j i) = .ok s' ∧
      Kept (fun r => FdTerm.dvar r ∈ compVars) sol s s' := by
  unfold bCfdDom
  rcases deref_cases (fun r hr => h.keeps r (Compatible.live hi r hr)) rfl with hdx | ⟨rx, hrx, hdx, -⟩
  · simp only [hdx]
    exact ⟨s, rfl, h.kept⟩
  rcases deref_cases (fun r hr => h.keeps r (Compatible.live hj r hr)) rfl with hdy | ⟨ry, hry, hdy, -⟩
  · simp only [hdx, hdy]
    exact ⟨s, rfl, h.kept⟩
  obtain ⟨hread, hne, -⟩ := hex.cell hi hj hij hv
  simp only [hdx, hdy, hread, bind, Except.bind]
  have hsup := h.supported hi hj
  rw [hrx, hry] at hsup
  have hlx := Compatible.live hi rx hrx
  have hly := Compatible.live hj ry hry
  unfold cfdDomElms
  cases hc : trieCell (tries i j) ex with
  | absent => contradiction
  | int w =>
    have hw := (hex.int_iff hi hj hij hc).2 rfl
    exact cfdDomElm_kept hex hi hj hij h.kept hlx hly hsup (supports_symm.1 hw)
  | var d =>
    obtain ⟨hinv, -, hiff⟩ := hex.var_iff hi hj hij hc
    have hle := hinv.shape.le
    exact cfdDomLoop_kept hex hi hj hij hlx hly hsup hinv.shape
      (fun y hy => (hiff y).2 hy) _ s _ (by push_cast; omega) hinv.shape.first_mem_elems h.kept

end

end Picat
