import Picat.Domain.Invariant

/-!
# Domain constraints with a list

`X :: D` and `X notin D` for a list `D` of integers and intervals. The first excludes the gaps between the elements, with a
running lower bound of its own; the second excludes the elements.

* `domainList_meets_iff` : the lists and variables for which they leave what they should.
-/

namespace Picat

open BitScan List

/-- An element of the list. `other` is any other term, an interval whose bounds are not integers of one word included. -/
inductive ListElm where
  | int (elm : ℤ)
  | interval (low up : ℤ)
  | other

/-- The loop over the rest of the list, with `min0`, `max0` and whether `Unsorted` has been unified with 1. `isNil` tells if
the list ends with `[]`. -/
def integersIntervalsLoop (isNil : Bool) : List ListElm → ℤ → ℤ → Bool → Option (ℤ × ℤ × Bool)
  | [], min0, max0, unsorted => if isNil then some (min0, max0, unsorted) else none
  | .int elm :: L, min0, max0, unsorted =>
    if elm ≤ max0 then integersIntervalsLoop isNil L (if elm < min0 then elm else min0) max0 true
    else integersIntervalsLoop isNil L min0 elm unsorted
  | .interval low up :: L, min0, max0, unsorted =>
    if low > up then none
    else if low ≤ max0 then
      integersIntervalsLoop isNil L (if low < min0 then low else min0) (if up > max0 then up else max0) true
    else integersIntervalsLoop isNil L min0 (if up > max0 then up else max0) unsorted
  | .other :: _, _, _, _ => none

def cIntegersIntervalsList (isNil : Bool) (elm : ListElm) (L : List ListElm) : Option (ℤ × ℤ × Bool) :=
  match elm with
  | .int elm => integersIntervalsLoop isNil L elm elm false
  | .interval min0 max0 => if min0 > max0 then none else integersIntervalsLoop isNil L min0 max0 false
  | .other => none

/-! ## The walks -/

/-- What a walk does with an element that is neither an integer nor an interval: it reads the cells of another term. -/
def readOther : Except Stop Dvar := .error .oob

/-- `check_var_in_d` for a variable `d` that is bound to `x`. -/
def checkVarInD (d : Dvar) (x : ℤ) : List ListElm → Except Stop Dvar
  | [] => .error .fail
  | .int elm :: L => if x = elm then .ok d else checkVarInD d x L
  | .interval low up :: L => if x ≥ low ∧ x ≤ up then .ok d else checkVarInD d x L
  | .other :: _ => readOther

/-- The loop of `b_VAR_IN_D_cc`. -/
def varInDLoop : List ListElm → Dvar → ℤ → Except Stop Dvar
  | [], d, _ => .ok d
  | .int elm :: L, d, Min =>
    if Min < elm then (domainExcludeIntervalAux d Min (elm - 1)).bind fun d => varInDLoop L d (elm + 1)
    else if Min = elm then varInDLoop L d (elm + 1)
    else varInDLoop L d Min
  | .interval low up :: L, d, Min =>
    (if Min < low then domainExcludeIntervalAux d Min (low - 1) else .ok d).bind fun d =>
      varInDLoop L d (if Min ≤ up then up + 1 else Min)
  | .other :: _, _, _ => readOther

def bVarInDCc (d : Dvar) (L : List ListElm) : Except Stop Dvar :=
  match d.var with
  | .int x => checkVarInD d x L
  | _ => varInDLoop L d d.first

/-- `check_var_notin_d` for a variable `d` that is bound to `x`. -/
def checkVarNotinD (d : Dvar) (x : ℤ) : List ListElm → Except Stop Dvar
  | [] => .ok d
  | .int elm :: L => if x = elm then .error .fail else checkVarNotinD d x L
  | .interval low up :: L => if x ≥ low ∧ x ≤ up then .error .fail else checkVarNotinD d x L
  | .other :: _ => readOther

/-- The loop of `b_VAR_NOTIN_D_cc`. -/
def varNotinDLoop : List ListElm → Dvar → Except Stop Dvar
  | [], d => .ok d
  | .int elm :: L, d => (domainSetFalseAux d elm).bind fun d => varNotinDLoop L d
  | .interval low up :: L, d => (domainExcludeIntervalAux d low up).bind fun d => varNotinDLoop L d
  | .other :: _, _ => readOther

def bVarNotinDCc (d : Dvar) (L : List ListElm) : Except Stop Dvar :=
  match d.var with
  | .int x => checkVarNotinD d x L
  | _ => varNotinDLoop L d

/-! ## What the list stands for -/

namespace ListElm

def low : ListElm → ℤ
  | int elm => elm
  | interval low _ => low
  | other => 0

def up : ListElm → ℤ
  | int elm => elm
  | interval _ up => up
  | other => 0

def Valid : ListElm → Prop
  | int _ => True
  | interval low up => low ≤ up
  | other => False

theorem Valid.le : ∀ {e : ListElm}, e.Valid → e.low ≤ e.up
  | int _, _ => le_refl _
  | interval _ _, h => h
  | other, h => h.elim

end ListElm

/-- The set `D` that the list denotes. -/
def denoted (L : List ListElm) : Set ℤ := {x | ∃ e ∈ L, e.low ≤ x ∧ x ≤ e.up}

instance (L : List ListElm) : DecidablePred (· ∈ denoted L) := fun x =>
  inferInstanceAs (Decidable (∃ e ∈ L, e.low ≤ x ∧ x ≤ e.up))

def Ascending (L : List ListElm) : Prop := L.Pairwise fun e f => e.up < f.low

/-- What `c_integers_intervals_list` is for. -/
def ListMeets (L : List ListElm) : Option (ℤ × ℤ × Bool) → Prop
  | none => False
  | some (Min, Max, unsorted) => IsLeast (denoted L) Min ∧ IsGreatest (denoted L) Max ∧ (unsorted = true ↔ ¬ Ascending L)

/-- The state of the loop: the bounds of what has been read, and whether it is out of order. -/
structure ListRead (L : List ListElm) (Min Max : ℤ) (unsorted : Bool) : Prop where
  least : IsLeast (denoted L) Min
  greatest : IsGreatest (denoted L) Max
  sorted : unsorted = true ↔ ¬ Ascending L

theorem denoted_snoc (L : List ListElm) (e : ListElm) : denoted (L ++ [e]) = denoted L ∪ Set.Icc e.low e.up := by
  ext x
  simp only [denoted, mem_append, mem_singleton, Set.mem_union, Set.mem_Icc]
  constructor
  · rintro ⟨f, hf | rfl, hx⟩
    · exact .inl ⟨f, hf, hx⟩
    · exact .inr hx
  · rintro (⟨f, hf, hx⟩ | hx)
    · exact ⟨f, .inl hf, hx⟩
    · exact ⟨e, .inr rfl, hx⟩

variable {e : ListElm} {v : ℤ}

theorem ascending_snoc {L : List ListElm} {e : ListElm} {Max : ℤ} (hvalid : ∀ f ∈ L, f.Valid)
    (hmax : IsGreatest (denoted L) Max) : Ascending (L ++ [e]) ↔ Ascending L ∧ Max < e.low := by
  rw [Ascending, pairwise_append]
  constructor
  · intro h
    obtain ⟨f, hf, hx⟩ := hmax.1
    exact ⟨h.1, hx.2.trans_lt (h.2.2 f hf e (mem_singleton_self e))⟩
  · intro h
    refine ⟨h.1, pairwise_singleton .., fun f hf g hg => ?_⟩
    obtain rfl := mem_singleton.1 hg
    have hle : f.up ≤ Max := hmax.2 ⟨f, hf, (hvalid f hf).le, le_refl _⟩
    omega

theorem ListRead.snoc {L : List ListElm} {Min Max : ℤ} {unsorted : Bool} (h : ListRead L Min Max unsorted)
    (hvalid : ∀ f ∈ L, f.Valid) (he : e.Valid) :
    ListRead (L ++ [e]) (min Min e.low) (max Max e.up) (unsorted || decide (e.low ≤ Max)) where
  least := by
    rw [denoted_snoc]
    exact h.least.union (isLeast_Icc he.le)
  greatest := by
    rw [denoted_snoc]
    exact h.greatest.union (isGreatest_Icc he.le)
  sorted := by
    rw [ascending_snoc hvalid h.greatest, not_and_or, ← h.sorted, Bool.or_eq_true, decide_eq_true_iff, not_lt]

theorem ListRead.single (he : e.Valid) : ListRead [e] e.low e.up false := by
  have hset : denoted [e] = Set.Icc e.low e.up := by
    ext x
    simp [denoted]
  refine ⟨?_, ?_, ?_⟩
  · rw [hset]
    exact isLeast_Icc he.le
  · rw [hset]
    exact isGreatest_Icc he.le
  · simp [Ascending]

theorem integersIntervalsLoop_meets {L : List ListElm} : ∀ {read : List ListElm} {Min Max : ℤ} {unsorted : Bool},
    ListRead read Min Max unsorted → (∀ f ∈ read, f.Valid) → (∀ f ∈ L, f.Valid) →
    ListMeets (read ++ L) (integersIntervalsLoop true L Min Max unsorted) := by
  induction L with
  | nil =>
    intro read Min Max unsorted h _ _
    rw [append_nil]
    exact ⟨h.least, h.greatest, h.sorted⟩
  | cons e L ih =>
    intro read Min Max unsorted h hread hL
    obtain ⟨he, hL⟩ := forall_mem_cons.1 hL
    have hread1 : ∀ f ∈ read ++ [e], f.Valid := fun f hf =>
      (mem_append.1 hf).elim (hread f) fun hf => mem_singleton.1 hf ▸ he
    have hle := (h.least.2 h.greatest.1)
    have hnext := ih (h.snoc hread he) hread1 hL
    rw [append_assoc, singleton_append] at hnext
    cases e with
    | int elm =>
      change ListMeets _ (integersIntervalsLoop true L (min Min elm) (max Max elm) (unsorted || decide (elm ≤ Max))) at hnext
      rw [integersIntervalsLoop]
      split_ifs with h1 h2
      · rwa [decide_eq_true h1, Bool.or_true, min_eq_right h2.le, max_eq_left h1] at hnext
      · rwa [decide_eq_true h1, Bool.or_true, min_eq_left (not_lt.1 h2), max_eq_left h1] at hnext
      · rwa [decide_eq_false h1, Bool.or_false, min_eq_left (hle.trans (not_le.1 h1).le),
          max_eq_right (not_le.1 h1).le] at hnext
    | interval low up =>
      have hlu : low ≤ up := he
      change ListMeets _ (integersIntervalsLoop true L (min Min low) (max Max up) (unsorted || decide (low ≤ Max))) at hnext
      have hmin : (if low < Min then low else Min) = min Min low := by
        rw [min_def]
        split_ifs <;> omega
      have hmax : (if up > Max then up else Max) = max Max up := by
        rw [max_def]
        split_ifs <;> omega
      rw [integersIntervalsLoop, if_neg (not_lt.2 hlu), hmin, hmax]
      split_ifs with h1
      · rwa [decide_eq_true h1, Bool.or_true] at hnext
      · rwa [decide_eq_false h1, Bool.or_false, min_eq_left (hle.trans (not_le.1 h1).le)] at hnext
    | other => exact he.elim

theorem cIntegersIntervalsList_meets {L : List ListElm} (hvalid : ∀ f ∈ e :: L, f.Valid) :
    ListMeets (e :: L) (cIntegersIntervalsList true e L) := by
  obtain ⟨he, hL⟩ := forall_mem_cons.1 hvalid
  have hloop := integersIntervalsLoop_meets (ListRead.single he)
    (fun f hf => mem_singleton.1 hf ▸ he) hL
  cases e with
  | int elm => exact hloop
  | interval low up =>
    have hlu : low ≤ up := he
    rw [cIntegersIntervalsList, if_neg (not_lt.2 hlu)]
    exact hloop
  | other => exact he.elim

/-! ## Walks as runs of the primitives -/

/-- A run of the routines that look whether the variable is bound. -/
def runOps : List DomOp → Dvar → Except Stop Dvar
  | [], d => .ok d
  | op :: ops, d => (op.aux d).bind (runOps ops)

/-- The gaps below the elements, from the running lower bound on. -/
def gaps : List ListElm → ℤ → List DomOp
  | [], _ => []
  | e :: L, Min =>
    if Min < e.low then .excludeInterval Min (e.low - 1) :: gaps L (if Min ≤ e.up then e.up + 1 else Min)
    else gaps L (if Min ≤ e.up then e.up + 1 else Min)

def ListElm.exclusion : ListElm → DomOp
  | int elm => .setFalse elm
  | interval low up => .excludeInterval low up
  | other => .setFalse 0

theorem gaps_int (elm Min : ℤ) (L : List ListElm) : gaps (.int elm :: L) Min =
    if Min < elm then .excludeInterval Min (elm - 1) :: gaps L (if Min ≤ elm then elm + 1 else Min)
    else gaps L (if Min ≤ elm then elm + 1 else Min) := rfl

theorem gaps_interval (low up Min : ℤ) (L : List ListElm) : gaps (.interval low up :: L) Min =
    if Min < low then .excludeInterval Min (low - 1) :: gaps L (if Min ≤ up then up + 1 else Min)
    else gaps L (if Min ≤ up then up + 1 else Min) := rfl

section
variable {L : List ListElm} (hvalid : ∀ e ∈ L, e.Valid) (d : Dvar)
include hvalid d

theorem varInDLoop_eq (Min : ℤ) : varInDLoop L d Min = runOps (gaps L Min) d := by
  induction L generalizing d Min with
  | nil => rfl
  | cons e L ih =>
    obtain ⟨he, hL⟩ := forall_mem_cons.1 hvalid
    have ih := ih hL
    cases e with
    | int elm =>
      rw [varInDLoop, gaps_int]
      rcases lt_trichotomy Min elm with h | rfl | h
      · rw [if_pos h, if_pos h, if_pos h.le, runOps]
        exact congrArg _ (funext fun d => ih d _)
      · rw [if_neg (lt_irrefl _), if_neg (lt_irrefl _), if_pos rfl, if_pos (le_refl _), ih]
      · rw [if_neg h.le.not_gt, if_neg h.le.not_gt, if_neg h.ne', if_neg h.not_ge, ih]
    | interval low up =>
      rw [varInDLoop, gaps_interval]
      split_ifs with h
      · rw [runOps]
        exact congrArg _ (funext fun d => ih d _)
      · rw [runOps]
        exact congrArg _ (funext fun d => ih d _)
      · exact ih d _
      · exact ih d _
    | other => exact he.elim

theorem varNotinDLoop_eq : varNotinDLoop L d = runOps (L.map ListElm.exclusion) d := by
  induction L generalizing d with
  | nil => rfl
  | cons e L ih =>
    obtain ⟨he, hL⟩ := forall_mem_cons.1 hvalid
    have ih : varNotinDLoop L = runOps (L.map ListElm.exclusion) := funext fun d => ih hL d
    cases e with
    | int elm =>
      rw [varNotinDLoop, ih]
      rfl
    | interval low up =>
      rw [varNotinDLoop, ih]
      rfl
    | other => exact he.elim

end

/-! ## One exclusion -/

namespace DomOp

def Exclusion : DomOp → Prop
  | setFalse _ => True
  | excludeInterval f t => f ≤ t
  | region _ _ => False

def AtBound : DomOp → Dvar → Prop
  | excludeInterval f t, d => f ≤ d.first ∧ t + 1 = d.last ∨ f = d.first + 1 ∧ d.last ≤ t
  | _, _ => False

/-- If the step leaves one value of a free variable, then this value is next to what is excluded, or the size field is right
and the counts of the step fit. -/
def Binds (op : DomOp) (d : Dvar) : Prop :=
  d.var = .susp → ∀ v, op.post d.elems = {v} → op.AtBound d ∨ d.size = d.elems.card ∧ op.Fits d

end DomOp

def BindsAlong : List DomOp → Dvar → Prop
  | [], _ => True
  | op :: ops, d => op.Binds d ∧ ∀ d', op.aux d = .ok d' → BindsAlong ops d'

/-- The result leaves exactly the set: it fails if and only if that is empty, and binds the variable if and only if it has
one element. -/
def LeavesSet (S : Finset ℤ) : Except Stop Dvar → Prop
  | .ok d => d.dom = S ∧ S.Nonempty ∧ ((∃ v, d.var = .int v) ↔ ∃ v, S = {v})
  | .error .fail => S = ∅
  | .error .oob => False

/-- A bound variable, or a free one with a choice left whose size field is not too small. -/
def Dvar.Choice (d : Dvar) : Prop :=
  (∃ v, d.var = .int v) ∨ d.var = .susp ∧ d.Shape ∧ d.Enough ∧ d.first < d.last

section
variable {d d' : Dvar}

def Dvar.ChoiceOrLate (d : Dvar) : Prop := d.Choice ∨ d.var = .susp ∧ ∃ v, d.dom = {v}

theorem Dvar.Inv.choice (h : d.Inv) : d.Choice := by
  cases hv : d.var with
  | int v => exact .inl ⟨v, hv⟩
  | susp => exact .inr ⟨hv, h.shape, (h.exact hv).enough, h.susp hv⟩
  | ref p => exact absurd hv (h.not_ref p)

theorem Dvar.Choice.leavesSet (h : d.Choice) : LeavesSet d.dom (.ok d) := by
  rcases h with ⟨v, hv⟩ | ⟨hv, hshape, -, hlt⟩
  · rw [LeavesSet, Dvar.dom_int hv]
    exact ⟨rfl, Finset.singleton_nonempty v, iff_of_true ⟨v, hv⟩ ⟨v, rfl⟩⟩
  · rw [LeavesSet, Dvar.dom_susp hv]
    refine ⟨rfl, ⟨_, hshape.first_mem_elems⟩, iff_of_false ?_ ?_⟩
    · simp [hv]
    · rintro ⟨v, hsingle⟩
      exact hshape.not_singleton hlt v hsingle

/-- With one value left and a size field that is too large, the variable is not assigned before the new bound comes to the
value. -/
theorem callDomainRegionMin_unassigned {f : ℤ} (h : d.Shape) (hsize : (d.elems.card : ℤ) < d.size) (hf : d.first < f)
    (hlt : f < d.last) (hS : members d.type.has f d.last = {d.last}) :
    ∃ d' f' t', callDomainRegionMin d d.first d.last f = .ok (d', f', t') ∧ d'.var = d.var := by
  have hcard := h.card_from hf (by omega)
  rw [hS, Finset.card_singleton] at hcard
  have hd : d.type ≠ .it := by
    intro hd
    have hmem : f ∈ members d.type.has f d.last := mem_members.2 ⟨⟨le_refl f, hlt.le⟩, by rw [hd]; rfl⟩
    rw [hS, Finset.mem_singleton] at hmem
    omega
  obtain ⟨c, hcut, hle, -⟩ := cutOff_spec h hd (show d.first ≤ d.first + 1 by omega) (show f - 1 < d.last by omega)
  obtain ⟨b, hb⟩ := Dvar.exists_bv hd
  obtain ⟨e, he, -⟩ := exists_nextIn h.last_mem hlt.le
  simp only [callDomainRegionMin, if_neg hlt.not_ge, if_neg hd, hcut, bind, Except.bind, pure, Except.pure]
  rw [if_neg (show ¬ d.size - c - 1 = 1 by omega)]
  simp only [domainNextBv_eq h hb hf.le (hb ▸ he)]
  exact ⟨_, _, _, rfl, rfl⟩

theorem callDomainRegionMax_unassigned {t : ℤ} (h : d.Shape) (hsize : (d.elems.card : ℤ) < d.size) (ht : t < d.last)
    (hlt : d.first < t) (hS : members d.type.has d.first t = {d.first}) :
    ∃ d' f' t', callDomainRegionMax d d.first d.last t = .ok (d', f', t') ∧ d'.var = d.var := by
  have hcard := h.card_upto ht (by omega)
  rw [hS, Finset.card_singleton] at hcard
  have hd : d.type ≠ .it := by
    intro hd
    have hmem : t ∈ members d.type.has d.first t := mem_members.2 ⟨⟨hlt.le, le_refl t⟩, by rw [hd]; rfl⟩
    rw [hS, Finset.mem_singleton] at hmem
    omega
  obtain ⟨c, hcut, hle, -⟩ := cutOff_spec h hd (show d.first ≤ t + 1 by omega) (show d.last - 1 < d.last by omega)
  obtain ⟨b, hb⟩ := Dvar.exists_bv hd
  obtain ⟨e, he, -⟩ := exists_prevIn h.first_mem hlt.le
  simp only [callDomainRegionMax, if_neg hlt.not_ge, if_neg hd, hcut, bind, Except.bind, pure, Except.pure]
  rw [if_neg (show ¬ d.size - c - 1 = 1 by omega)]
  simp only [domainPrevBv_eq h hb ht.le (hb ▸ he)]
  exact ⟨_, _, _, rfl, rfl⟩

section
variable {f t : ℤ} (h : d.Shape) (hlt : d.first < d.last) (hS : d.elems \ Finset.Icc f t = {v})
include h hlt hS

/-- An interval that leaves one value takes out one bound and all that lies on its side. -/
theorem exclude_single : (f ≤ d.first ∧ d.first ≤ t ∧ t < d.last ∧ members d.type.has (t + 1) d.last = {d.last}) ∨
      (d.first < f ∧ f ≤ d.last ∧ d.last ≤ t ∧ members d.type.has d.first (f - 1) = {d.first}) := by
  have hleft : ∀ x, x ∈ d.elems ∧ ¬ (f ≤ x ∧ x ≤ t) ↔ x = v := fun x => by
    rw [← Finset.mem_singleton, ← hS, Finset.mem_sdiff, Finset.mem_Icc]
  have hfirst := hleft d.first
  have hlast := hleft d.last
  rw [and_iff_right h.first_mem_elems] at hfirst
  rw [and_iff_right h.last_mem_elems] at hlast
  by_cases hv : v = d.last
  · left
    have hf : f ≤ d.first ∧ d.first ≤ t := not_not.1 fun hno => by
      have := hfirst.1 hno
      omega
    have ht : t < d.last := by
      have := hlast.2 hv.symm
      omega
    refine ⟨hf.1, hf.2, ht, Finset.eq_singleton_iff_unique_mem.2 ⟨?_, fun x hx => ?_⟩⟩
    · exact mem_members.2 ⟨⟨by omega, le_refl _⟩, h.last_mem⟩
    · obtain ⟨hx1, hx2⟩ := mem_members.1 hx
      rw [← hv]
      exact (hleft x).1 ⟨Dvar.mem_elems.2 ⟨by omega, hx2⟩, by omega⟩
  · right
    have hl : f ≤ d.last ∧ d.last ≤ t := not_not.1 fun hno => hv (hlast.1 hno).symm
    have hf : d.first < f := by
      by_contra hno
      have hnone := (hleft v).2 rfl
      have := Dvar.mem_elems.1 hnone.1
      omega
    have hvf : d.first = v := hfirst.1 (by omega)
    refine ⟨hf, hl.1, hl.2, Finset.eq_singleton_iff_unique_mem.2 ⟨?_, fun x hx => ?_⟩⟩
    · exact mem_members.2 ⟨⟨le_refl _, by omega⟩, h.first_mem⟩
    · obtain ⟨hx1, hx2⟩ := mem_members.1 hx
      rw [hvf]
      exact (hleft x).1 ⟨Dvar.mem_elems.2 ⟨by omega, hx2⟩, by omega⟩

theorem exclude_atBound
    (hat : (DomOp.excludeInterval f t).AtBound d) : ∃ w, domainExcludeIntervalNoint d f t = .ok (assignDvar d w) := by
  unfold domainExcludeIntervalNoint
  rcases exclude_single h hlt hS with ⟨hf, hft, htl, -⟩ | ⟨hf, hfl, htl, -⟩
  · have ht : t + 1 = d.last := by
      rcases hat with hat | hat
      · exact hat.2
      · omega
    rw [if_pos hf, domainRegionNoint, callDomainRegion, if_neg (by omega), if_pos (by omega), if_neg (by omega),
      callDomainRegionMin, if_pos (by omega), if_neg (by omega)]
    exact ⟨_, rfl⟩
  · have ht : f = d.first + 1 := by
      rcases hat with hat | hat
      · omega
      · exact hat.1
    rw [if_neg (by omega), if_pos htl, domainRegionNoint, callDomainRegion, if_neg (by omega), if_neg (by omega),
      if_pos (by omega), callDomainRegionMax, if_pos (by omega), if_neg (by omega)]
    exact ⟨_, rfl⟩

theorem exclude_unassigned (hat : ¬ (DomOp.excludeInterval f t).AtBound d) (hsize : (d.elems.card : ℤ) < d.size) :
    ∃ d', domainExcludeIntervalNoint d f t = .ok d' ∧ d'.var = d.var := by
  obtain ⟨hat1, hat2⟩ := not_or.1 hat
  unfold domainExcludeIntervalNoint
  rcases exclude_single h hlt hS with ⟨hf, hft, htl, hmem⟩ | ⟨hf, hfl, htl, hmem⟩
  · obtain ⟨d', f', t', hcall, hvar⟩ :=
      callDomainRegionMin_unassigned h hsize (show d.first < t + 1 by omega) (by omega) hmem
    rw [if_pos hf, domainRegionNoint, callDomainRegion, if_neg (by omega), if_pos (by omega), if_neg (by omega), hcall]
    exact ⟨d', rfl, hvar⟩
  · obtain ⟨d', f', t', hcall, hvar⟩ :=
      callDomainRegionMax_unassigned h hsize (show f - 1 < d.last by omega) (by omega) hmem
    rw [if_neg (by omega), if_pos htl, domainRegionNoint, callDomainRegion, if_neg (by omega), if_neg (by omega),
      if_pos (by omega), hcall]
    exact ⟨d', rfl, hvar⟩

end

/-- An element that leaves one value is a bound, and the size field is compared with 2. -/
theorem setFalse_unassigned {e : ℤ} (h : d.Shape) (hlt : d.first < d.last) (hS : d.elems.erase e = {v})
    (hsize : (d.elems.card : ℤ) < d.size) : ∃ d', domainSetFalseNoint d e = .ok d' ∧ d'.var = d.var := by
  have hcard : 1 < d.elems.card :=
    Finset.one_lt_card.2 ⟨_, h.first_mem_elems, _, h.last_mem_elems, hlt.ne⟩
  unfold domainSetFalseNoint
  by_cases hfirst : e = d.first
  · obtain ⟨f, hnext, -⟩ := nextElm_eq h (show d.first ≤ d.first + 1 by omega) hlt
    subst hfirst
    rw [if_neg (by omega), if_pos rfl, if_neg (by omega), hnext]
    exact ⟨_, rfl, rfl⟩
  · have hv : d.first = v := by
      rw [← Finset.mem_singleton, ← hS]
      exact Finset.mem_erase.2 ⟨Ne.symm hfirst, h.first_mem_elems⟩
    have hlast : e = d.last := by
      by_contra hne
      have hv2 : d.last = v := by
        rw [← Finset.mem_singleton, ← hS]
        exact Finset.mem_erase.2 ⟨Ne.symm hne, h.last_mem_elems⟩
      omega
    obtain ⟨l, hprev, -⟩ := prevElm_eq h (show d.last - 1 ≤ d.last by omega) hlt
    subst hlast
    rw [if_neg (by omega), if_neg hfirst, if_pos rfl, if_neg (by omega), hprev]
    exact ⟨_, rfl, rfl⟩

theorem Dvar.Shape.elems_eq_singleton (h : d.Shape) (heq : d.first = d.last) : d.elems = {d.first} := by
  refine Finset.eq_singleton_iff_unique_mem.2 ⟨h.first_mem_elems, fun x hx => ?_⟩
  have := (Dvar.mem_elems.1 hx).1
  omega

/-- On a free variable the step leaves exactly the set, and a choice or a value if and only if it binds in time. -/
theorem Narrowed.binds_iff (op : DomOp) {S : Finset ℤ} {fits : Prop} (hpost : op.post d.elems = S) (hv : d.var = .susp)
    (hlt : d.first < d.last) (henough : d.Enough) (hfits : op.Fits d ↔ fits) (hn : Narrowed d S fits d')
    (hat : ∀ v, S = {v} → op.AtBound d → ∃ w, op.noint d = .ok (assignDvar d w))
    (hun : ∀ v, S = {v} → ¬ op.AtBound d → (d.elems.card : ℤ) < d.size → ∃ d1, op.noint d = .ok d1 ∧ d1.var = d.var)
    (hr : op.noint d = .ok d') : d'.dom = S ∧ (op.Binds d ↔ d'.Choice) ∧ d'.ChoiceOrLate := by
  cases hn with
  | updated hvar hcs hrange hshape helems henough' hexact =>
    have hsusp := hvar.trans hv
    have hdom := (Dvar.dom_susp hsusp).trans helems
    have hlate : d'.ChoiceOrLate := (hshape.le.lt_or_eq).imp (fun hlt' => .inr ⟨hsusp, hshape, henough', hlt'⟩)
      fun heq => ⟨hsusp, _, (Dvar.dom_susp hsusp).trans (hshape.elems_eq_singleton heq)⟩
    refine ⟨hdom, ⟨fun hbinds => .inr ⟨hsusp, hshape, henough', ?_⟩, ?_⟩, hlate⟩
    · apply lt_of_le_of_ne hshape.le
      intro heq
      have hsingle : S = {d'.first} := helems.symm.trans (hshape.elems_eq_singleton heq)
      rcases hbinds hv _ (hpost.trans hsingle) with hb | ⟨hsize, hf⟩
      · obtain ⟨w, hw⟩ := hat _ hsingle hb
        obtain rfl := Except.ok.inj (hr.symm.trans hw)
        simp [assignDvar] at hsusp
      · exact absurd heq ((hexact ⟨hsize, hlt⟩).1 (hfits.1 hf)).2.ne
    · rintro (⟨w, hw⟩ | ⟨-, -, -, hlt'⟩) - v hsingle
      · simp [hsusp] at hw
      · exact absurd (helems.trans (hpost.symm.trans hsingle)) (hshape.not_singleton hlt' v)
  | @assigned v hS hexact =>
    have hchoice : (assignDvar d v).Choice := .inl ⟨v, rfl⟩
    refine ⟨hS.symm, iff_of_true (fun _ w hsingle => ?_) hchoice, .inl hchoice⟩
    by_cases hb : op.AtBound d
    · exact .inl hb
    · have hsize : d.size = d.elems.card := by
        by_contra hne
        obtain ⟨d1, hd1, hvar⟩ := hun _ hS hb (lt_of_le_of_ne henough (Ne.symm hne))
        obtain rfl := Except.ok.inj (hr.symm.trans hd1)
        simp [assignDvar, hv] at hvar
      exact .inr ⟨hsize, hfits.2 (hexact ⟨hsize, hlt⟩)⟩

theorem DomOp.choice_step {op : DomOp} (hop : op.Exclusion) (h : d.Choice) :
    (op.post d.dom = ∅ ∧ op.aux d = .error .fail) ∨
      ∃ d', op.aux d = .ok d' ∧ d'.dom = op.post d.dom ∧ d'.dom.Nonempty ∧ (op.Binds d ↔ d'.Choice) ∧ d'.ChoiceOrLate := by
  rcases h with ⟨v, hv⟩ | ⟨hv, hshape, henough, hlt⟩
  · -- a value is compared
    have hok : op.post {v} = {v} → op.aux d = .ok d →
        ∃ d', op.aux d = .ok d' ∧ d'.dom = op.post d.dom ∧ d'.dom.Nonempty ∧ (op.Binds d ↔ d'.Choice) ∧
          d'.ChoiceOrLate := fun hpost hr =>
      ⟨d, hr, by rw [Dvar.dom_int hv, hpost], by rw [Dvar.dom_int hv]; exact Finset.singleton_nonempty v,
        iff_of_true (fun hs => by simp [hv] at hs) (.inl ⟨v, hv⟩), .inl (.inl ⟨v, hv⟩)⟩
    rw [Dvar.dom_int hv] at hok ⊢
    cases op with
    | setFalse e =>
      simp only [DomOp.aux, domainSetFalseAux, hv] at hok ⊢
      by_cases heq : v = e
      · exact .inl ⟨by simp [DomOp.post, heq], if_pos heq⟩
      · exact .inr (hok (Finset.erase_eq_of_notMem (by simpa using Ne.symm heq)) (if_neg heq))
    | excludeInterval f t =>
      simp only [DomOp.aux, domainExcludeIntervalAux, hv] at hok ⊢
      by_cases hin : v ≥ f ∧ v ≤ t
      · exact .inl ⟨Finset.sdiff_eq_empty_iff_subset.2 (by simpa using hin), if_pos hin⟩
      · exact .inr (hok (Finset.sdiff_eq_self_of_disjoint (by simpa using hin)) (if_neg hin))
    | region f t => exact hop.elim
  rw [op.aux_of_susp hv, Dvar.dom_susp hv]
  cases op with
  | setFalse e =>
    right
    have hne : (d.elems.erase e).Nonempty := by
      by_cases he : e = d.first
      · exact ⟨d.last, Finset.mem_erase.2 ⟨by omega, hshape.last_mem_elems⟩⟩
      · exact ⟨d.first, Finset.mem_erase.2 ⟨Ne.symm he, hshape.first_mem_elems⟩⟩
    obtain ⟨d', hr, hn⟩ := domainSetFalseNoint_narrowed hshape henough hne
    obtain ⟨hdom, hbinds⟩ := hn.binds_iff (.setFalse e) rfl hv hlt henough Iff.rfl (fun _ _ h => h.elim)
      (fun v hS _ hsize => setFalse_unassigned hshape hlt hS hsize) hr
    exact ⟨d', hr, hdom, hdom ▸ hne, hbinds⟩
  | excludeInterval f t =>
    rcases (d.elems \ Finset.Icc f t).eq_empty_or_nonempty with hS | hne
    · left
      have hmem : ∀ x ∈ d.elems, f ≤ x ∧ x ≤ t := fun x hx =>
        Finset.mem_Icc.1 (Finset.sdiff_eq_empty_iff_subset.1 hS hx)
      have hf := hmem _ hshape.first_mem_elems
      have hl := hmem _ hshape.last_mem_elems
      refine ⟨hS, ?_⟩
      rw [DomOp.noint, domainExcludeIntervalNoint, if_pos hf.1, domainRegionNoint, callDomainRegion, if_pos (by omega)]
      rfl
    · right
      obtain ⟨d', hr, hn⟩ := domainExcludeIntervalNoint_narrowed hshape henough hop hne
      obtain ⟨hdom, hbinds⟩ := hn.binds_iff (.excludeInterval f t) rfl hv hlt henough
        (by simp only [DomOp.Fits, hv, true_imp_iff])
        (fun v hS hat => exclude_atBound hshape hlt hS hat)
        (fun v hS hat hsize => exclude_unassigned hshape hlt hS hat hsize) hr
      exact ⟨d', hr, hdom, hdom ▸ hne, hbinds⟩
  | region f t => exact hop.elim

end

noncomputable def postAll (ops : List DomOp) (S : Finset ℤ) : Finset ℤ := ops.foldl (fun S op => op.post S) S

section
variable {d : Dvar} {ops : List DomOp} {S : Finset ℤ}

theorem postAll_empty (hops : ∀ op ∈ ops, op.Exclusion) : postAll ops ∅ = ∅ := by
  induction ops with
  | nil => rfl
  | cons op ops ih =>
    obtain ⟨hop, hops⟩ := forall_mem_cons.1 hops
    have hpost : op.post ∅ = ∅ := by
      cases op with
      | setFalse e => rfl
      | excludeInterval f t => exact Finset.empty_sdiff _
      | region f t => exact hop.elim
    rw [postAll, foldl_cons, hpost]
    exact ih hops

/-- A run leaves at every point what it should if and only if every step binds in time. -/
theorem runOps_leaves_iff (hops : ∀ op ∈ ops, op.Exclusion) (h : d.Choice) :
    (∀ ops1, ops1 <+: ops → LeavesSet (postAll ops1 d.dom) (runOps ops1 d)) ↔ BindsAlong ops d := by
  induction ops generalizing d with
  | nil =>
    refine iff_of_true (fun ops1 hpre => ?_) trivial
    obtain rfl := prefix_nil.1 hpre
    exact h.leavesSet
  | cons op ops ih =>
    obtain ⟨hop, hrestops⟩ := forall_mem_cons.1 hops
    rw [BindsAlong]
    rcases DomOp.choice_step hop h with ⟨hempty, hfail⟩ | ⟨d', hok, hdom, hne, hbinds, hlate⟩
    · -- nothing is left, and the rest of the list is not read
      refine iff_of_true (fun ops1 hpre => ?_) ⟨fun hv v hsingle => ?_, fun d' hd' => ?_⟩
      · cases ops1 with
        | nil => exact h.leavesSet
        | cons op1 ops1 =>
          obtain ⟨heq, hpre1⟩ := cons_prefix_cons.1 hpre
          subst heq
          rw [runOps, hfail, postAll, foldl_cons, hempty]
          exact postAll_empty fun op hmem => hrestops op (hpre1.subset hmem)
      · rw [Dvar.dom_susp hv, hsingle] at hempty
        simp at hempty
      · rw [hfail] at hd'
        simp at hd'
    · have hrest : (∀ d1, op.aux d = .ok d1 → BindsAlong ops d1) ↔ BindsAlong ops d' := by
        rw [hok]
        simp
      have hcons : ∀ ops1, LeavesSet (postAll (op :: ops1) d.dom) (runOps (op :: ops1) d) ↔
          LeavesSet (postAll ops1 d'.dom) (runOps ops1 d') := fun ops1 => by
        rw [runOps, hok, postAll, foldl_cons, ← hdom]
        rfl
      rw [hrest]
      constructor
      · intro hall
        have hchoice : d'.Choice := by
          have hfirst := (hcons []).1 (hall [op] (cons_prefix_cons.2 ⟨rfl, nil_prefix⟩))
          refine hlate.resolve_right fun ⟨hv, w, hw⟩ => ?_
          obtain ⟨x, hx⟩ := hfirst.2.2.2 ⟨w, hw⟩
          simp [hv] at hx
        refine ⟨hbinds.2 hchoice, (ih hrestops hchoice).1 fun ops1 hpre => (hcons ops1).1 (hall _ ?_)⟩
        exact cons_prefix_cons.2 ⟨rfl, hpre⟩
      · rintro ⟨hb, hall⟩ ops1 hpre
        cases ops1 with
        | nil => exact h.leavesSet
        | cons op1 ops1 =>
          obtain ⟨heq, hpre1⟩ := cons_prefix_cons.1 hpre
          subst heq
          exact (hcons ops1).2 ((ih hrestops (hbinds.1 hb)).2 hall ops1 hpre1)

end

/-! ## The walks over the list -/

/-- What `b_VAR_IN_D_cc` has left of a set after the elements that it has read: the values in them and those above. -/
noncomputable def leftAfter (S : Finset ℤ) (L : List ListElm) : Finset ℤ :=
  S.filter fun x => x ∈ denoted L ∨ ∀ e ∈ L, e.up < x

/-- `b_VAR_IN_D_cc` leaves the values in `D`, and on its way it leaves after every element what it should. -/
def VarInDMeets (d : Dvar) (L : List ListElm) : Prop :=
  LeavesSet (d.dom.filter (· ∈ denoted L)) (bVarInDCc d L) ∧
    (d.var = .susp → ∀ P, P <+: L → LeavesSet (leftAfter d.dom P) (bVarInDCc d P))

def VarNotinDMeets (d : Dvar) (L : List ListElm) : Prop :=
  ∀ P, P <+: L → LeavesSet (d.dom.filter (· ∉ denoted P)) (bVarNotinDCc d P)

section
variable {L P : List ListElm} {S : Finset ℤ} {d : Dvar}

theorem mem_denoted_cons {x : ℤ} : x ∈ denoted (e :: L) ↔ e.low ≤ x ∧ x ≤ e.up ∨ x ∈ denoted L := by
  simp [denoted]

theorem gaps_exclusion (L : List ListElm) (Min : ℤ) : ∀ op ∈ gaps L Min, op.Exclusion := by
  induction L generalizing Min with
  | nil => simp [gaps]
  | cons e L ih =>
    rw [gaps]
    by_cases hlow : Min < e.low
    · rw [if_pos hlow]
      refine forall_mem_cons.2 ⟨?_, ih _⟩
      change Min ≤ e.low - 1
      omega
    · rw [if_neg hlow]
      exact ih _

theorem gaps_mono (h : P <+: L) (Min : ℤ) : gaps P Min <+: gaps L Min := by
  induction P generalizing L Min with
  | nil => exact nil_prefix
  | cons e P ih =>
    cases L with
    | nil => simp at h
    | cons f L =>
      obtain ⟨rfl, htail⟩ := cons_prefix_cons.1 h
      rw [gaps, gaps]
      by_cases hlow : Min < e.low
      · rw [if_pos hlow, if_pos hlow]
        exact cons_prefix_cons.2 ⟨rfl, ih htail _⟩
      · rw [if_neg hlow, if_neg hlow]
        exact ih htail _

theorem prefix_gaps {ops : List DomOp} {Min : ℤ} (h : ops <+: gaps L Min) : ∃ P, P <+: L ∧ gaps P Min = ops := by
  induction L generalizing Min ops with
  | nil => exact ⟨[], nil_prefix, (prefix_nil.1 h).symm⟩
  | cons e L ih =>
    rw [gaps] at h
    by_cases hlow : Min < e.low
    · rw [if_pos hlow] at h
      cases ops with
      | nil => exact ⟨[], nil_prefix, rfl⟩
      | cons op ops =>
        obtain ⟨rfl, htail⟩ := cons_prefix_cons.1 h
        obtain ⟨P, hP, rfl⟩ := ih htail
        refine ⟨e :: P, cons_prefix_cons.2 ⟨rfl, hP⟩, ?_⟩
        rw [gaps, if_pos hlow]
    · rw [if_neg hlow] at h
      obtain ⟨P, hP, rfl⟩ := ih h
      refine ⟨e :: P, cons_prefix_cons.2 ⟨rfl, hP⟩, ?_⟩
      rw [gaps, if_neg hlow]

section
variable (hvalid : ∀ e ∈ L, e.Valid)
include hvalid

/-- The gaps of an ascending list leave what lies below the running bound, in the list or above it. -/
theorem postAll_gaps (hasc : Ascending L) (Min : ℤ) (S : Finset ℤ) :
    postAll (gaps L Min) S = S.filter fun x => x < Min ∨ x ∈ denoted L ∨ ∀ e ∈ L, e.up < x := by
  induction L generalizing Min S with
  | nil => simp [gaps, postAll]
  | cons e L ih =>
    obtain ⟨he, hvalid⟩ := forall_mem_cons.1 hvalid
    obtain ⟨habove, hasc⟩ := pairwise_cons.1 hasc
    have hstep : postAll (gaps (e :: L) Min) S =
        postAll (gaps L (if Min ≤ e.up then e.up + 1 else Min)) (S \ Finset.Icc Min (e.low - 1)) := by
      rw [gaps]
      split_ifs with h1 h2 h2
      · rfl
      · rfl
      all_goals rw [Finset.Icc_eq_empty (by omega), Finset.sdiff_empty]
    have hin : ∀ x, x ∈ denoted L → e.low ≤ x := by
      rintro x ⟨f, hf, hx⟩
      have := habove f hf
      have := he.le
      omega
    have hle := he.le
    rw [hstep, ih hvalid hasc]
    ext x
    simp only [Finset.mem_filter, Finset.mem_sdiff, Finset.mem_Icc, mem_denoted_cons, forall_mem_cons]
    have hx := hin x
    by_cases hmin : Min ≤ e.up
    · rw [if_pos hmin]
      constructor
      · rintro ⟨⟨hS, hnot⟩, h⟩
        refine ⟨hS, ?_⟩
        by_cases hlt : x < Min
        · exact .inl hlt
        by_cases hup : x ≤ e.up
        · exact .inr (.inl (.inl (by omega)))
        · exact .inr ((h.resolve_left (by omega)).imp .inr fun hab => ⟨by omega, hab⟩)
      · rintro ⟨hS, hlt | (hmem | hmem) | hab⟩
        · exact ⟨⟨hS, by omega⟩, .inl (by omega)⟩
        · exact ⟨⟨hS, by omega⟩, .inl (by omega)⟩
        · have := hx hmem
          exact ⟨⟨hS, by omega⟩, .inr (.inl hmem)⟩
        · exact ⟨⟨hS, by omega⟩, .inr (.inr hab.2)⟩
    · rw [if_neg hmin]
      constructor
      · rintro ⟨⟨hS, hnot⟩, h⟩
        refine ⟨hS, ?_⟩
        by_cases hlt : x < Min
        · exact .inl hlt
        · exact .inr ((h.resolve_left hlt).imp .inr fun hab => ⟨by omega, hab⟩)
      · rintro ⟨hS, hlt | (hmem | hmem) | hab⟩
        · exact ⟨⟨hS, by omega⟩, .inl hlt⟩
        · exact ⟨⟨hS, by omega⟩, .inl (by omega)⟩
        · have := hx hmem
          exact ⟨⟨hS, by omega⟩, .inr (.inl hmem)⟩
        · exact ⟨⟨hS, by omega⟩, .inr (.inr hab.2)⟩

theorem exclusion_exclusion : ∀ op ∈ L.map ListElm.exclusion, op.Exclusion := by
  intro op hop
  obtain ⟨e, he, rfl⟩ := mem_map.1 hop
  have hv := hvalid e he
  cases e with
  | int elm => trivial
  | interval low up => exact hv
  | other => exact hv.elim

theorem postAll_exclusion (S : Finset ℤ) : postAll (L.map ListElm.exclusion) S = S.filter (· ∉ denoted L) := by
  induction L generalizing S with
  | nil => simp [postAll, denoted]
  | cons e L ih =>
    obtain ⟨he, hvalid⟩ := forall_mem_cons.1 hvalid
    have hpost : e.exclusion.post S = S.filter fun x => ¬ (e.low ≤ x ∧ x ≤ e.up) := by
      ext x
      rw [Finset.mem_filter]
      cases e with
      | int elm =>
        simp only [ListElm.exclusion, DomOp.post, ListElm.low, ListElm.up, Finset.mem_erase]
        rw [and_comm]
        refine and_congr_right fun _ => ?_
        omega
      | interval low up =>
        simp only [ListElm.exclusion, DomOp.post, ListElm.low, ListElm.up, Finset.mem_sdiff, Finset.mem_Icc]
      | other => exact he.elim
    rw [map_cons, postAll, foldl_cons, hpost]
    refine (ih hvalid _).trans ?_
    rw [Finset.filter_filter]
    refine Finset.filter_congr fun x _ => ?_
    rw [mem_denoted_cons, not_or]

end

theorem bindsAlong_int {ops : List DomOp} (hops : ∀ op ∈ ops, op.Exclusion) (hv : d.var = .int v) :
    BindsAlong ops d := by
  induction ops with
  | nil => trivial
  | cons op ops ih =>
    obtain ⟨hop, hops⟩ := forall_mem_cons.1 hops
    refine ⟨fun hs => by simp [hv] at hs, fun d' hd' => ?_⟩
    have hsame : d = d' := by
      cases op with
      | setFalse e =>
        simp only [DomOp.aux, domainSetFalseAux, hv] at hd'
        split_ifs at hd'
        exact Except.ok.inj hd'
      | excludeInterval f t =>
        simp only [DomOp.aux, domainExcludeIntervalAux, hv] at hd'
        split_ifs at hd'
        exact Except.ok.inj hd'
      | region f t => exact hop.elim
    exact hsame ▸ ih hops

section
variable (hvalid : ∀ e ∈ L, e.Valid)
include hvalid

theorem checkVarInD_leaves (hv : d.var = .int v) : LeavesSet (d.dom.filter (· ∈ denoted L)) (checkVarInD d v L) := by
  have hok : v ∈ denoted L → LeavesSet (d.dom.filter (· ∈ denoted L)) (.ok d) := fun hmem => by
    have hall : d.dom.filter (· ∈ denoted L) = d.dom := by
      rw [Dvar.dom_int hv, Finset.filter_singleton, if_pos hmem]
    rw [hall]
    exact Dvar.Choice.leavesSet (.inl ⟨v, hv⟩)
  have hfail : v ∉ denoted L → LeavesSet (d.dom.filter (· ∈ denoted L)) (.error .fail) := fun hmem => by
    rw [LeavesSet, Dvar.dom_int hv, Finset.filter_singleton, if_neg hmem]
  have hcheck : checkVarInD d v L = if v ∈ denoted L then .ok d else .error .fail := by
    clear hok hfail
    induction L with
    | nil => simp [checkVarInD, denoted]
    | cons e L ih =>
      obtain ⟨he, hvalidL⟩ := forall_mem_cons.1 hvalid
      simp only [mem_denoted_cons]
      cases e with
      | int elm =>
        rw [checkVarInD, ih hvalidL]
        by_cases h : v = elm
        · rw [if_pos h]
          exact (if_pos (.inl ⟨h.ge, h.le⟩)).symm
        · rw [if_neg h]
          exact if_congr (or_iff_right fun h' => h (le_antisymm h'.2 h'.1)).symm rfl rfl
      | interval low up =>
        rw [checkVarInD, ih hvalidL]
        by_cases h : v ≥ low ∧ v ≤ up
        · rw [if_pos h]
          exact (if_pos (.inl h)).symm
        · rw [if_neg h]
          exact if_congr (or_iff_right h).symm rfl rfl
      | other => exact he.elim
  rw [hcheck]
  split_ifs with hmem
  · exact hok hmem
  · exact hfail hmem

theorem checkVarNotinD_eq (hv : d.var = .int v) : checkVarNotinD d v L = runOps (L.map ListElm.exclusion) d := by
  induction L with
  | nil => rfl
  | cons e L ih =>
    obtain ⟨he, hvalidL⟩ := forall_mem_cons.1 hvalid
    cases e with
    | int elm =>
      simp only [checkVarNotinD, map_cons, ListElm.exclusion, runOps, DomOp.aux, domainSetFalseAux, hv]
      split_ifs
      · rfl
      · exact ih hvalidL
    | interval low up =>
      simp only [checkVarNotinD, map_cons, ListElm.exclusion, runOps, DomOp.aux, domainExcludeIntervalAux, hv]
      split_ifs
      · rfl
      · exact ih hvalidL
    | other => exact he.elim

theorem varInD_meets_iff (hasc : Ascending L) (h : d.Inv)
    (habove : ∀ x ∈ d.dom, ∃ e ∈ L, x ≤ e.up) : VarInDMeets d L ↔ BindsAlong (gaps L d.first) d := by
  cases hv : d.var with
  | int v =>
    refine iff_of_true ⟨?_, fun hs => by simp [hv] at hs⟩ (bindsAlong_int (gaps_exclusion L _) hv)
    simp only [bVarInDCc, hv]
    exact checkVarInD_leaves hvalid hv
  | ref p => exact absurd hv (h.not_ref p)
  | susp =>
    have hwalk : ∀ P, P <+: L → LeavesSet (leftAfter d.dom P) (bVarInDCc d P) =
        LeavesSet (postAll (gaps P d.first) d.dom) (runOps (gaps P d.first) d) := by
      intro P hP
      have hset : leftAfter d.dom P = postAll (gaps P d.first) d.dom := by
        rw [postAll_gaps (fun e he => hvalid e (hP.subset he)) (hasc.sublist hP.sublist), leftAfter]
        refine Finset.filter_congr fun x hx => ?_
        rw [Dvar.dom_susp hv] at hx
        have := (Dvar.mem_elems.1 hx).1
        rw [or_iff_right (show ¬ x < d.first by omega)]
      have hrun : bVarInDCc d P = runOps (gaps P d.first) d := by
        simp only [bVarInDCc, hv]
        exact varInDLoop_eq (fun e he => hvalid e (hP.subset he)) d d.first
      rw [hset, hrun]
    have hall : d.dom.filter (· ∈ denoted L) = leftAfter d.dom L := by
      refine Finset.filter_congr fun x hx => (or_iff_left fun hab => ?_).symm
      obtain ⟨e, he, hxe⟩ := habove x hx
      exact (hab e he).not_ge hxe
    rw [← runOps_leaves_iff (gaps_exclusion L _) h.choice, VarInDMeets, hall]
    constructor
    · rintro ⟨-, hpre⟩ ops hops
      obtain ⟨P, hP, rfl⟩ := prefix_gaps hops
      exact hwalk P hP ▸ hpre hv P hP
    · intro hpre
      have hstart : ∀ P, P <+: L → LeavesSet (leftAfter d.dom P) (bVarInDCc d P) := fun P hP =>
        hwalk P hP ▸ hpre _ (gaps_mono hP _)
      exact ⟨hstart L (prefix_refl L), fun _ => hstart⟩

theorem varNotinD_meets_iff (h : d.Inv) : VarNotinDMeets d L ↔ BindsAlong (L.map ListElm.exclusion) d := by
  have hwalk : ∀ P, P <+: L → LeavesSet (d.dom.filter (· ∉ denoted P)) (bVarNotinDCc d P) =
      LeavesSet (postAll (P.map ListElm.exclusion) d.dom) (runOps (P.map ListElm.exclusion) d) := by
    intro P hP
    have hvalidP : ∀ e ∈ P, e.Valid := fun e he => hvalid e (hP.subset he)
    have hrun : bVarNotinDCc d P = runOps (P.map ListElm.exclusion) d := by
      unfold bVarNotinDCc
      cases hv : d.var with
      | int v => exact checkVarNotinD_eq hvalidP hv
      | susp => exact varNotinDLoop_eq hvalidP d
      | ref p => exact absurd hv (h.not_ref p)
    rw [postAll_exclusion hvalidP, hrun]
  rw [← runOps_leaves_iff (exclusion_exclusion hvalid) h.choice, VarNotinDMeets]
  constructor
  · intro hpre ops hops
    have htake := prefix_iff_eq_take.1 hops
    rw [← map_take] at htake
    rw [htake, ← hwalk _ ( take_prefix _ _)]
    exact hpre _ ( take_prefix _ _)
  · intro hpre P hP
    rw [hwalk P hP]
    exact hpre _ (hP.map _)

end

end

/-- For a list of integers and intervals: its bounds and its order are found, and if it is in order, then the walks of a
variable within the bounds leave what they should if and only if every step binds in time. -/
theorem domainList_meets_iff {e : ListElm} {L : List ListElm} (hvalid : ∀ f ∈ e :: L, f.Valid) {d : Dvar} (h : d.Inv) :
    ListMeets (e :: L) (cIntegersIntervalsList true e L) ∧
      ∀ Min Max, cIntegersIntervalsList true e L = some (Min, Max, false) → (∀ x ∈ d.dom, Min ≤ x ∧ x ≤ Max) →
        (VarInDMeets d (e :: L) ↔ BindsAlong (gaps (e :: L) d.first) d) ∧
          (VarNotinDMeets d (e :: L) ↔ BindsAlong ((e :: L).map ListElm.exclusion) d) := by
  have hlist := cIntegersIntervalsList_meets hvalid
  refine ⟨hlist, fun Min Max hread hin => ⟨?_, varNotinD_meets_iff hvalid h⟩⟩
  rw [hread] at hlist
  obtain ⟨-, hmax, hsorted⟩ := hlist
  have hasc : Ascending (e :: L) := by
    by_contra hno
    exact Bool.false_ne_true (hsorted.2 hno)
  obtain ⟨f, hf, hle⟩ := hmax.1
  exact varInD_meets_iff hvalid hasc h fun x hx => ⟨f, hf, (hin x hx).2.trans hle.2⟩

theorem domainList_meets_one_three_five :
    ListMeets [.int 1, .interval 3 5] (cIntegersIntervalsList true (.int 1) [.interval 3 5]) ∧
      (VarInDMeets (auxCreateDomainVar 1 5) [.int 1, .interval 3 5] ↔
        BindsAlong (gaps [.int 1, .interval 3 5] 1) (auxCreateDomainVar 1 5)) ∧
      (VarNotinDMeets (auxCreateDomainVar 1 5) [.int 1, .interval 3 5] ↔
        BindsAlong [.setFalse 1, .excludeInterval 3 5] (auxCreateDomainVar 1 5)) := by
  have hvalid : ∀ f ∈ [ListElm.int 1, .interval 3 5], f.Valid := by simp [ListElm.Valid]
  have h := domainList_meets_iff hvalid (auxCreateDomainVar_inv (show (1 : ℤ) < 5 by decide))
  refine ⟨h.1, h.2 1 5 rfl fun x hx => ?_⟩
  exact Finset.mem_Icc.1 (auxCreateDomainVar_elems 1 5 ▸ hx)

/-- `0..2^32` without `2^32-1`, and the list `[-1,2^32-1,2^32]`: the gap below `2^32-1` has `2^32-1` values, and the one value
that is left is not assigned. -/
theorem bVarInDCc_unbound :
    ∃ d d', (DomOp.setFalse (2 ^ 32 - 1)).exec false (Creation.dvar 0 (2 ^ 32)).dvarOf = .ok d ∧ d.Inv ∧
      cIntegersIntervalsList true (.int (-1)) [.int (2 ^ 32 - 1), .int (2 ^ 32)] = some (-1, 2 ^ 32, false) ∧
      (∀ x ∈ d.dom, -1 ≤ x ∧ x ≤ 2 ^ 32) ∧
      bVarInDCc d [.int (-1), .int (2 ^ 32 - 1), .int (2 ^ 32)] = .ok d' ∧ d'.var = .susp ∧ d'.dom = {2 ^ 32} ∧
      ¬ LeavesSet (d.dom.filter (· ∈ denoted [.int (-1), .int (2 ^ 32 - 1), .int (2 ^ 32)]))
        (bVarInDCc d [.int (-1), .int (2 ^ 32 - 1), .int (2 ^ 32)]) := by
  obtain ⟨d, hexec, hinv₁, hvar₁, htype, hfirst₁, hlast₁, hdom₁⟩ := exists_dvar_erase
    (show (0 : ℤ) < 2 ^ 32 - 1 by decide) (by decide)
  have hmem : ∀ x, x ∈ d.elems ↔ x ≠ 2 ^ 32 - 1 ∧ 0 ≤ x ∧ x ≤ 2 ^ 32 := fun x => by
    rw [hdom₁, Finset.mem_erase, Finset.mem_Icc]
  have hpost : d.elems \ Finset.Icc 0 (2 ^ 32 - 2) = {2 ^ 32} := by
    ext x
    rw [Finset.mem_sdiff, hmem, Finset.mem_Icc, Finset.mem_singleton]
    omega
  have hcut : ¬ d.ExcludeFits 0 (2 ^ 32 - 2) := by
    rw [Dvar.ExcludeFits, if_pos (by omega)]
    intro hfits
    have hlow := (hfits htype (by omega)).1 (by omega) (by omega)
    have hsub : Finset.Icc 1 (2 ^ 32 - 2) ⊆ d.elems ∩ Finset.Ioo d.first (2 ^ 32 - 2 + 1) := fun x hx => by
      rw [Finset.mem_Icc] at hx
      rw [Finset.mem_inter, hmem, Finset.mem_Ioo]
      omega
    have hle := Finset.card_le_card hsub
    rw [Int.card_Icc] at hle
    omega
  have hbinds : ¬ (DomOp.excludeInterval 0 (2 ^ 32 - 2)).Binds d := by
    intro hbinds
    rcases hbinds hvar₁ _ hpost with (hat | hat) | ⟨-, hfits⟩
    · omega
    · omega
    · exact hcut (hfits hvar₁)
  have hexcl : (DomOp.excludeInterval 0 (2 ^ 32 - 2)).Exclusion := show (0 : ℤ) ≤ 2 ^ 32 - 2 by decide
  rcases DomOp.choice_step hexcl hinv₁.choice with ⟨hempty, -⟩ | ⟨d', hok, hdom', -, hiff, hlate⟩
  · rw [Dvar.dom_susp hvar₁, DomOp.post, hpost] at hempty
    simp at hempty
  obtain ⟨hfree, -⟩ := hlate.resolve_left fun hc => hbinds (hiff.2 hc)
  have hleft : d'.dom = {2 ^ 32} := by rw [hdom', Dvar.dom_susp hvar₁, DomOp.post, hpost]
  have hrun : bVarInDCc d [.int (-1), .int (2 ^ 32 - 1), .int (2 ^ 32)] = .ok d' := by
    have haux : domainExcludeIntervalAux d 0 (2 ^ 32 - 1 - 1) = .ok d' := hok
    simp only [bVarInDCc, hvar₁, varInDLoop, hfirst₁]
    rw [if_neg (by decide), if_neg (by decide), if_pos (by decide), haux]
    rfl
  refine ⟨d, d', hexec, hinv₁, rfl, fun x hx => ?_, hrun, hfree, hleft, fun hleaves => ?_⟩
  · rw [Dvar.dom_susp hvar₁, hmem] at hx
    omega
  · rw [hrun, LeavesSet] at hleaves
    obtain ⟨v, hv⟩ := hleaves.2.2.2 ⟨2 ^ 32, hleaves.1.symm.trans hleft⟩
    simp [hfree] at hv

end Picat
