import Picat.Tabling.TableMap

/-!
# Global maps

* `copied_spec`, `rebuilt_of_rising` : what is copied, and what is rebuilt from a copy.
-/

namespace Picat

open Chains Variants List

/-! ## Copying -/

/-- The numbers that variables are bound to, and `varno`. -/
structure Numbering where
  num : ℕ → Option ℕ
  varno : ℕ

mutual

/-- `numberVarCopyToParea`, and its loops over lists and commas, which go from left to right as well. -/
def numberVarCopyToParea (st : Numbering) : Tm Label ℕ → Tm Label ℕ × Numbering
  | .var x =>
    match st.num x with
    | some n => (.var n, st)
    | none => (.var st.varno, ⟨Function.update st.num x (some st.varno), st.varno + 1⟩)
  | .app f args =>
    let copy := numberVarCopyArgsToParea st args
    (.app f copy.1, copy.2)

def numberVarCopyArgsToParea (st : Numbering) : List (Tm Label ℕ) → List (Tm Label ℕ) × Numbering
  | [] => ([], st)
  | t :: ts =>
    let first := numberVarCopyToParea st t
    let rest := numberVarCopyArgsToParea first.2 ts
    (first.1 :: rest.1, rest.2)

end

def Numbering.boundVar (st : Numbering) (susp : ℕ → Bool) (x : ℕ) : KeyVar :=
  match st.num x with
  | some n => .numbered n
  | none => if susp x then .susp x else .free x

/-- A term as the numbering leaves it: its numbered variables are bound. -/
def Numbering.bound (st : Numbering) (susp : ℕ → Bool) (t : Tm Label ℕ) : Tm Label KeyVar := t.rename (st.boundVar susp)

mutual

def unnumberVarTermOpt (st : Unnumber) : Tm Label ℕ → Tm Label ℕ × Unnumber
  | .var n =>
    if (n : ℤ) > st.max then
      (.var st.heapTop, ⟨n, Function.update st.slot n (.var st.heapTop), st.heapTop + 1⟩)
    else (st.slot n, st)
  | .app f args =>
    let copy := unnumberVarArgsOpt st args
    (.app f copy.1, copy.2)

def unnumberVarArgsOpt (st : Unnumber) : List (Tm Label ℕ) → List (Tm Label ℕ) × Unnumber
  | [] => ([], st)
  | t :: ts =>
    let first := unnumberVarTermOpt st t
    let rest := unnumberVarArgsOpt first.2 ts
    (first.1 :: rest.1, rest.2)

end

/-! ## The map -/

/-- `MAP_RECORD` and its `KEY_VAL_PAIR`s, with numbered terms. -/
abbrev GlobalMap := PairTable (Tm Label ℕ) (Tm Label ℕ)

/-- `BP_HASH_CODE1`: the main functor, where `listPsc` is the symbol of lists. -/
def bpHashCode1 (listPsc : Sym) : Tm Label ℕ → ℕ
  | .var _ => 0
  | .app (.atm w) _ => wordHash w
  | .app .lst _ => (listPsc &&& hashBits) >>> 3
  | .app (.str sym) _ => (sym &&& hashBits) >>> 3

namespace GlobalMap

/-- A new map, as `b_GET_PICAT_GLOBAL_MAP_cf` makes it. -/
def start : GlobalMap := ⟨fun _ => .var 0, fun _ => .var 0, ⟨7, fun _ => none, fun _ => none⟩, 0, 0⟩

/-- `expand_picat_global_map`, which is called when the table is `full`, and stops when there is no memory. -/
def expand (listPsc : Sym) (m : GlobalMap) (full malloc : Bool) : Option GlobalMap :=
  m.expandIf (full && malloc) (bpHashCode1 listPsc) (bpHsize (3 * m.chains.size))

/-- `b_PICAT_GLOBAL_MAP_PUT_ccc`. The value is numbered before the lookup, and its variables stay bound when those of
the key are numbered from zero on. -/
def put (listPsc : Sym) (m : GlobalMap) (susp : ℕ → Bool) (key val : HeapTerm) (malloc : Bool) :
    Option (Except MapError GlobalMap) :=
  if key.isRef susp then some (.error .nonvariableExpected)
  else do
    let hcode := bpHashCode1 listPsc key.tree
    let valCp := numberVarCopyToParea ⟨fun _ => none, 0⟩ val.tree
    match ← m.lookup hcode fun k => keyIdentical (k.rename .numbered) (valCp.2.bound susp key.tree) with
    | some a => some (.ok (m.replace a valCp.1))
    | none =>
      let keyCp := numberVarCopyToParea ⟨valCp.2.num, 0⟩ key.tree
      let m := m.push hcode keyCp.1 valCp.1
      let m ← expand listPsc m (2 * m.count > m.chains.size) malloc
      some (.ok m)

/-- `b_PICAT_GLOBAL_MAP_GET_ccf`: the value, rebuilt from `slot` and `heapTop` on, or no success. -/
def get (listPsc : Sym) (m : GlobalMap) (susp : ℕ → Bool) (key : HeapTerm) (slot : ℕ → Tm Label ℕ) (heapTop : ℕ) :
    Option (Except MapError (Option (Tm Label ℕ))) :=
  if key.isRef susp then some (.error .nonvariableExpected)
  else do
    match ← m.lookup (bpHashCode1 listPsc key.tree) fun k =>
        keyIdentical (key.keyTerm susp) (k.rename .numbered) with
    | some a => some (.ok (some (unnumberVarTermOpt (prepareUnnumberTerm slot heapTop) (m.val a)).1))
    | none => some (.ok none)

/-- `b_PICAT_GLOBAL_MAP_SIZE_cf` -/
def size (m : GlobalMap) : ℕ := m.count

/-- `PREPARE_UNNUMBER_TERM` in the middle of a listing. -/
def prepare (st : Unnumber) : Unnumber := prepareUnnumberTerm st.slot st.heapTop

/-- The loop over the buckets, which puts what it makes of a pair in front of the list. -/
def listing {α : Type*} (rebuild : Unnumber → Tm Label ℕ × Tm Label ℕ → α × Unnumber) (m : GlobalMap) (st : Unnumber) :
    List α :=
  (m.pairs.foldl (fun l p => ((rebuild l.2 p).1 :: l.1, (rebuild l.2 p).2)) ([], st)).1

/-- `b_PICAT_GLOBAL_MAP_KEYS_cf` -/
def keys (m : GlobalMap) (st : Unnumber) : List (Tm Label ℕ) :=
  listing (fun st p => unnumberVarTermOpt (prepare st) p.1) m st

/-- `b_PICAT_GLOBAL_MAP_VALS_cf` -/
def vals (m : GlobalMap) (st : Unnumber) : List (Tm Label ℕ) :=
  listing (fun st p => unnumberVarTermOpt (prepare st) p.2) m st

/-- `b_PICAT_GLOBAL_MAP_LIST_cf`: the key and the value are rebuilt one without the other. -/
def list (m : GlobalMap) (st : Unnumber) : List (Tm Label ℕ × Tm Label ℕ) :=
  listing (fun st p =>
    let key := unnumberVarTermOpt (prepare st) p.1
    let val := unnumberVarTermOpt (prepare key.2) p.2
    ((key.1, val.1), val.2)) m st

end GlobalMap

/-! ## What is copied -/

/-- The place of a variable: in `vs`, if it is there, and else in `ws`. -/
def placeIn (vs ws : List ℕ) (x : ℕ) : ℕ := if x ∈ vs then vs.idxOf x else ws.idxOf x

/-- The variables of `vs` have their places as numbers, and so have those of `ws`, which are numbered now. -/
structure Numbering.Numbers (st : Numbering) (vs ws : List ℕ) : Prop where
  num_eq : ∀ x, st.num x = if x ∈ vs ∨ x ∈ ws then some (placeIn vs ws x) else none
  varno_eq : st.varno = ws.length

/-- The occurrences outside `vs`. -/
def outside (vs : List ℕ) (xs : List ℕ) : List ℕ := xs.filter (· ∉ vs)

theorem placeIn_of_extends {vs ws ws' : List ℕ} (h : ws <+: ws') {x : ℕ} (hx : x ∈ vs ∨ x ∈ ws) :
    placeIn vs ws' x = placeIn vs ws x := by
  unfold placeIn
  split_ifs with hv
  · rfl
  · exact idxOf_prefix_eq h (hx.resolve_left hv)

theorem mem_firsts_outside {vs ws xs : List ℕ} {x : ℕ} (hx : x ∈ xs) : x ∈ vs ∨ x ∈ firsts ws (outside vs xs) := by
  by_cases hv : x ∈ vs
  · exact .inl hv
  · exact .inr (mem_firsts.2 (.inr (mem_filter.2 ⟨hx, by simpa using hv⟩)))

theorem firsts_outside_append {vs ws xs ys : List ℕ} :
    firsts ws (outside vs (xs ++ ys)) = firsts (firsts ws (outside vs xs)) (outside vs ys) := by
  unfold outside
  rw [filter_append, firsts_append]

structure CopiedAs (vs ws : List ℕ) (t : Tm Label ℕ) (r : Tm Label ℕ × Numbering) : Prop where
  term_eq : r.1 = t.rename (placeIn vs (firsts ws (outside vs t.occs)))
  numbers : r.2.Numbers vs (firsts ws (outside vs t.occs))

theorem copied_var {st : Numbering} {vs ws : List ℕ} (h : st.Numbers vs ws) (x : ℕ) :
    CopiedAs vs ws (.var x) (numberVarCopyToParea st (.var x)) := by
  have hnum := h.num_eq x
  have hoccs : (Tm.var x : Tm Label ℕ).occs = [x] := rfl
  by_cases hx : x ∈ vs ∨ x ∈ ws
  · have hfirsts : firsts ws (outside vs [x]) = ws := firsts_eq_self fun y hy => by
      unfold outside at hy
      rw [mem_filter, mem_singleton] at hy
      obtain ⟨rfl, hy⟩ := hy
      exact hx.resolve_left (by simpa using hy)
    rw [if_pos hx] at hnum
    refine ⟨?_, ?_⟩
    · rw [numberVarCopyToParea, hnum, hoccs, hfirsts]
      rfl
    · rw [numberVarCopyToParea, hnum, hoccs, hfirsts]
      exact h
  · rw [if_neg hx] at hnum
    rw [not_or] at hx
    have hfirsts : firsts ws (outside vs [x]) = ws ++ [x] := by simp [outside, hx.1, firsts, hx.2]
    have hplace : placeIn vs (ws ++ [x]) x = st.varno := by
      rw [placeIn, if_neg hx.1, idxOf_append_of_notMem hx.2, h.varno_eq]
      simp
    refine ⟨?_, ?_⟩
    · rw [numberVarCopyToParea, hnum, hoccs, hfirsts, Tm.rename, hplace]
    · rw [numberVarCopyToParea, hnum, hoccs, hfirsts]
      refine ⟨fun y => ?_, ?_⟩
      · by_cases hyx : y = x
        · subst hyx
          simp [hplace]
        · have hextends : ∀ hy : y ∈ vs ∨ y ∈ ws, placeIn vs (ws ++ [x]) y = placeIn vs ws y :=
            placeIn_of_extends (prefix_append ..)
          change Function.update st.num x (some st.varno) y = _
          rw [Function.update_of_ne hyx, h.num_eq y]
          simp only [mem_append, mem_singleton, hyx, or_false]
          split_ifs with hy
          · rw [hextends hy]
          · rfl
      · simp [h.varno_eq]

theorem copied_spec {t : Tm Label ℕ} {st : Numbering} {vs ws : List ℕ} (h : st.Numbers vs ws) :
    CopiedAs vs ws t (numberVarCopyToParea st t) := by
  induction t using Tm.induct generalizing st ws with
  | var x => exact copied_var h x
  | app f ts ih =>
    have hargs : ∀ {st : Numbering} {ws : List ℕ}, st.Numbers vs ws →
        (numberVarCopyArgsToParea st ts).1 = Tm.mapVars (placeIn vs (firsts ws (outside vs (Tm.vars ts)))) ts ∧
          (numberVarCopyArgsToParea st ts).2.Numbers vs (firsts ws (outside vs (Tm.vars ts))) := by
      clear h
      induction ts with
      | nil =>
        intro st ws h
        exact ⟨rfl, h⟩
      | cons t ts ihts =>
        intro st ws h
        rw [forall_mem_cons] at ih
        have hfirst := ih.1 h
        obtain ⟨hrest, hnumbers⟩ := ihts ih.2 hfirst.numbers
        have hoccs : firsts ws (outside vs (Tm.vars (t :: ts))) =
            firsts (firsts ws (outside vs t.occs)) (outside vs (Tm.vars ts)) := firsts_outside_append
        rw [hoccs]
        refine ⟨?_, hnumbers⟩
        rw [numberVarCopyArgsToParea, Tm.mapVars, hrest, hfirst.term_eq]
        refine congrArg (· :: _) (Tm.rename_congr t fun x hx => ?_)
        exact (placeIn_of_extends prefix_firsts (mem_firsts_outside hx)).symm
    obtain ⟨hterm, hnumbers⟩ := hargs h
    refine ⟨?_, hnumbers⟩
    rw [numberVarCopyToParea, Tm.rename, hterm]
    rfl

/-- The numbers of a term rise in the order in which they occur first. -/
def Rising (t : Tm Label ℕ) : Prop := (firsts [] t.occs).Pairwise (· < ·)

theorem rebuilt_spec {t : Tm Label ℕ} {st : Unnumber} {base : ℕ} {seen : List ℕ} (hst : st.Knows base seen)
    (hrise : (firsts seen t.occs).Pairwise (· < ·)) : Rebuilt base seen t (unnumberVarTermOpt st t) := by
  induction t using Tm.induct generalizing st seen with
  | var n => exact unnumber_var hst n hrise
  | app f ts ih =>
    have hargs : ∀ {st : Unnumber} {seen : List ℕ}, st.Knows base seen → (firsts seen (Tm.vars ts)).Pairwise (· < ·) →
        (unnumberVarArgsOpt st ts).1 = Tm.mapVars (newVar base (firsts seen (Tm.vars ts))) ts ∧
          (unnumberVarArgsOpt st ts).2.Knows base (firsts seen (Tm.vars ts)) := by
      clear hst hrise
      induction ts with
      | nil =>
        intro st seen hst _
        exact ⟨rfl, hst⟩
      | cons t ts ihts =>
        intro st seen hst hrise
        rw [forall_mem_cons] at ih
        have hoccs : firsts seen (Tm.vars (t :: ts)) = firsts (firsts seen t.occs) (Tm.vars ts) := firsts_append
        rw [hoccs] at hrise ⊢
        have hfirst := ih.1 hst (pairwise_of_extends prefix_firsts hrise)
        obtain ⟨hrest, hknows⟩ := ihts ih.2 hfirst.knows hrise
        refine ⟨?_, hknows⟩
        rw [unnumberVarArgsOpt, Tm.mapVars, hrest, hfirst.tree_eq_of_extends prefix_firsts]
    obtain ⟨hterm, hknows⟩ := hargs hst hrise
    refine ⟨?_, hknows⟩
    rw [unnumberVarTermOpt, hterm]
    rfl

theorem rebuilt_of_rising {t : Tm Label ℕ} (h : Rising t) (slot : ℕ → Tm Label ℕ) (heapTop : ℕ) :
    Variant [t] [(unnumberVarTermOpt (prepareUnnumberTerm slot heapTop) t).1] := by
  have hrebuilt := rebuilt_spec (knows_prepare slot heapTop) h
  refine ⟨newVar heapTop (firsts [] t.occs), fun x hx y _ hxy => ?_, by rw [hrebuilt.tree_eq]; rfl⟩
  have hmem : x ∈ firsts [] t.occs := mem_firsts.2 (.inr (by simpa [Tm.vars] using hx))
  exact (idxOf_inj hmem).1 (Nat.add_left_cancel hxy)

end Picat

/-! # Global maps over a run -/

namespace Picat

open Chains Variants Function List

/-! ## Conditions -/

namespace GlobalMap

/-- The number that a variable of a new key gets: its place among the variables of the value, or else among those
variables of the key that the value lacks. -/
def keyNumber (k v : HeapTerm) : ℕ → ℕ :=
  let vs := firsts [] v.tree.occs
  placeIn vs (firsts [] (outside vs k.tree.occs))

/-- A key that was put and has the shape of the new one is a variant of it exactly when every suspension variable of the
new one occurs in the value; and the variables of a key without such variants get numbers that rise. -/
def PutOk (puts : List (HeapTerm × HeapTerm)) (susp : ℕ → Bool) (k v : HeapTerm) : Prop :=
  (∀ p ∈ puts, shape p.1.tree = shape k.tree →
    (Variant [p.1.tree] [k.tree] ↔ ∀ x ∈ k.tree.occs, susp x = true → x ∈ v.tree.occs)) ∧
  ((∀ p ∈ puts, ¬Variant [p.1.tree] [k.tree]) → ((firsts [] k.tree.occs).map (keyNumber k v)).Pairwise (· < ·))

def GetOk (puts : List (HeapTerm × HeapTerm)) (k : HeapTerm) : Prop :=
  k.tree.occs ≠ [] → ∀ p ∈ puts, ¬Variant [p.1.tree] [k.tree]

end GlobalMap

def ReadsLatest (puts : List (HeapTerm × HeapTerm)) (k : HeapTerm) :
    Option (Except MapError (Option (Tm Label ℕ))) → Prop
  | some (.ok (some r)) => ∃ p, IsLatest puts k p ∧ Variant [p.2.tree] [r]
  | some (.ok none) => ∀ p ∈ puts, ¬Variant [p.1.tree] [k.tree]
  | _ => False

/-- The pairs that have been put, and the map; suspension variables may come and go. -/
inductive GlobalMapRun (listPsc : Sym) (ok : List (HeapTerm × HeapTerm) → (ℕ → Bool) → HeapTerm → HeapTerm → Prop) :
    List (HeapTerm × HeapTerm) → GlobalMap → Prop
  | start : GlobalMapRun listPsc ok [] .start
  | put {puts : List (HeapTerm × HeapTerm)} {m m' : GlobalMap} (h : GlobalMapRun listPsc ok puts m) {susp : ℕ → Bool}
      {k v : HeapTerm} {malloc : Bool} (hok : ok puts susp k v)
      (hput : GlobalMap.put listPsc m susp k v malloc = some (.ok m')) : GlobalMapRun listPsc ok (puts ++ [(k, v)]) m'

/-! ## Shapes and variants -/

variable {t : Tm Label ℕ} {k : HeapTerm} {a : ℕ}

theorem eq_of_shape_eq {t u : Tm Label ℕ} (h : shape t = shape u) (hu : u.occs = []) : t = u := by
  have ht : t.occs = [] := by
    have hoccs := congrArg Tm.occs h
    unfold shape at hoccs
    rw [Tm.occs_rename, Tm.occs_rename, hu, map_nil, map_eq_nil_iff] at hoccs
    exact hoccs
  have hback : ∀ s : Tm Label ℕ, s.occs = [] → (shape s).rename (fun _ => 0) = s := fun s hs => by
    unfold shape
    rw [Tm.rename_rename]
    refine (Tm.rename_congr s fun x hx => ?_).trans (Tm.rename_id s)
    rw [hs] at hx
    exact absurd hx not_mem_nil
  rw [← hback t ht, h, hback u hu]

theorem shape_canon (t : Tm Label ℕ) : [shape t] = Tm.mapVars (fun _ => ()) (canon [t]) := by
  unfold canon
  rw [Tm.mapVars_mapVars]
  rfl

theorem shape_eq_of_canon {u : Tm Label ℕ} (h : canon [t] = canon [u]) : shape t = shape u := by
  have hshape : [shape t] = [shape u] := by rw [shape_canon, shape_canon, h]
  exact singleton_inj.1 hshape

theorem bpHashCode1_of_shape (listPsc : Sym) {u : Tm Label ℕ} (h : shape t = shape u) :
    bpHashCode1 listPsc t = bpHashCode1 listPsc u := by
  unfold shape at h
  cases t with
  | var x =>
    cases u with
    | var y => rfl
    | app g us => simp [Tm.rename] at h
  | app f ts =>
    cases u with
    | var y => simp [Tm.rename] at h
    | app g us =>
      simp only [Tm.rename, Tm.app.injEq] at h
      obtain ⟨rfl, -⟩ := h
      cases f <;> rfl

mutual

theorem keyIdentical_live (susp : ℕ → Bool) : ∀ k t : Tm Label ℕ,
    keyIdentical (k.rename fun x => if susp x then .susp x else .free x) (t.rename .numbered) = true ↔ k = t ∧ k.occs = []
  | .var x, t => by
    rw [Tm.rename]
    cases t <;> cases susp x <;> simp [Tm.rename, keyIdentical, Tm.occs]
  | .app f ts, .var y => by simp [Tm.rename, keyIdentical]
  | .app f ts, .app g us => by
    simp only [Tm.rename, keyIdentical, Bool.and_eq_true, decide_eq_true_eq, Tm.app.injEq, Tm.occs,
      keyIdenticalArgs_live susp ts us, and_assoc]

theorem keyIdenticalArgs_live (susp : ℕ → Bool) : ∀ ts us : List (Tm Label ℕ),
    keyIdenticalArgs (Tm.mapVars (fun x => if susp x then .susp x else .free x) ts) (Tm.mapVars .numbered us) = true ↔
      ts = us ∧ Tm.vars ts = []
  | [], [] => by simp [Tm.mapVars, keyIdenticalArgs, Tm.vars]
  | [], _ :: _ => by simp [Tm.mapVars, keyIdenticalArgs]
  | _ :: _, [] => by simp [Tm.mapVars, keyIdenticalArgs]
  | t :: ts, u :: us => by
    simp only [Tm.mapVars, keyIdenticalArgs, Bool.and_eq_true, keyIdentical_live susp t u,
      keyIdenticalArgs_live susp ts us, List.cons.injEq, Tm.vars, append_eq_nil_iff]
    tauto

end

/-! ## Numbers that rise -/

theorem rising_rename {σ : ℕ → ℕ} (h : ((firsts [] t.occs).map σ).Pairwise (· < ·)) :
    Rising (t.rename σ) ∧ Variant [t] [t.rename σ] := by
  have hinj : Set.InjOn σ {x | x ∈ t.occs} := fun x hx y hy hxy => by
    have hmem : ∀ z ∈ t.occs, z ∈ firsts [] t.occs := fun z hz => mem_firsts.2 (.inr hz)
    exact inj_on_of_nodup_map (h.imp Nat.ne_of_lt) (hmem x hx) (hmem y hy) hxy
  refine ⟨?_, σ, hinj.mono fun x hx => by simpa [Tm.vars] using hx, rfl⟩
  unfold Rising
  rw [firsts_occs_rename hinj]
  exact h

theorem pairwise_map_idxOf {xs : List ℕ} (h : xs.Nodup) : (xs.map xs.idxOf).Pairwise (· < ·) := by
  rw [pairwise_map, pairwise_iff_getElem]
  intro i j hi hj hij
  rw [h.idxOf_getElem i hi, h.idxOf_getElem j hj]
  exact hij

theorem numbers_start : (⟨fun _ => none, 0⟩ : Numbering).Numbers [] [] := ⟨fun x => by simp, rfl⟩

theorem val_spec (v : Tm Label ℕ) :
    (Rising (numberVarCopyToParea ⟨fun _ => none, 0⟩ v).1 ∧ Variant [v] [(numberVarCopyToParea ⟨fun _ => none, 0⟩ v).1]) ∧
      Numbering.Numbers ⟨(numberVarCopyToParea ⟨fun _ => none, 0⟩ v).2.num, 0⟩ (firsts [] v.occs) [] := by
  have hcopied := copied_spec (t := v) numbers_start
  have houtside : outside [] v.occs = v.occs := by simp [outside]
  have hplace : placeIn [] (firsts [] v.occs) = (firsts [] v.occs).idxOf := by
    funext x
    simp [placeIn]
  constructor
  · rw [hcopied.term_eq, houtside, hplace]
    exact rising_rename (pairwise_map_idxOf (nodup_firsts nodup_nil))
  · refine ⟨fun x => ?_, rfl⟩
    have hnum := hcopied.numbers.num_eq x
    rw [houtside, hplace] at hnum
    change (numberVarCopyToParea ⟨fun _ => none, 0⟩ v).2.num x = _
    rw [hnum]
    by_cases hx : x ∈ firsts [] v.occs <;> simp [hx, placeIn]

theorem susp_notMem_bound {st : Numbering} {vs : List ℕ} (h : st.Numbers vs []) (susp : ℕ → Bool) (t : Tm Label ℕ) :
    (∀ x, .susp x ∉ (st.bound susp t).occs) ↔ ∀ x ∈ t.occs, susp x = true → x ∈ vs := by
  have hmem : ∀ x y, st.boundVar susp y = .susp x ↔ y = x ∧ susp y = true ∧ y ∉ vs := fun x y => by
    have hnum := h.num_eq y
    unfold Numbering.boundVar
    by_cases hy : y ∈ vs
    · rw [if_pos (.inl hy)] at hnum
      simp [hnum, hy]
    · rw [if_neg (by simp [hy])] at hnum
      rw [hnum]
      cases hs : susp y <;> simp [hy]
  unfold Numbering.bound
  simp only [Tm.occs_rename, mem_map, hmem, not_exists, not_and]
  refine ⟨fun hno x hx hs => ?_, fun hall x y hy _ hs hv => hv (hall y hy hs)⟩
  by_contra hv
  exact hno x x hx rfl hs hv

/-! ## The pairs of a map -/

/-- A finite map on the classes of keys has the latest pair of every key that was put, and nothing else. -/
structure Latest (puts : List (HeapTerm × HeapTerm)) (f : List (Tm Label ℕ) → Option (Tm Label ℕ × Tm Label ℕ)) :
    Prop where
  exists_latest : ∀ c p, f c = some p → Rising p.1 ∧ Rising p.2 ∧
    ∃ q, canon [q.1.tree] = c ∧ IsLatest puts q.1 q ∧ Variant [q.2.tree] [p.2]
  exists_pair : ∀ p ∈ puts, ∃ q, f (canon [p.1.tree]) = some q

theorem latest_nil : Latest [] fun _ => none :=
  ⟨fun _ _ h => (nomatch h), fun _ h => absurd h not_mem_nil⟩

theorem mem_of_isLatest {puts : List (HeapTerm × HeapTerm)} {p : HeapTerm × HeapTerm}
    (h : IsLatest puts k p) : p ∈ puts := by
  obtain ⟨pre, post, rfl, -⟩ := h
  simp

theorem Latest.not_variant {puts : List (HeapTerm × HeapTerm)} {f : List (Tm Label ℕ) → Option (Tm Label ℕ × Tm Label ℕ)}
    (h : Latest puts f) (hk : f (canon [k.tree]) = none) : ∀ p ∈ puts, ¬Variant [p.1.tree] [k.tree] := by
  intro p hp hvariant
  obtain ⟨q, hq⟩ := h.exists_pair p hp
  rw [hvariant.canon_eq, hk] at hq
  cases hq

theorem Latest.put [DecidableEq (List (Tm Label ℕ))] {puts : List (HeapTerm × HeapTerm)}
    {f : List (Tm Label ℕ) → Option (Tm Label ℕ × Tm Label ℕ)} (h : Latest puts f) {k v : HeapTerm} {kk vv : Tm Label ℕ}
    (hkk : Rising kk) (hvv : Rising vv ∧ Variant [v.tree] [vv]) :
    Latest (puts ++ [(k, v)]) (update f (canon [k.tree]) (some (kk, vv))) := by
  refine ⟨fun c p hp => ?_, fun p hp => ?_⟩
  · by_cases hc : c = canon [k.tree]
    · rw [hc, update_self, Option.some.injEq] at hp
      refine ⟨hp ▸ hkk, hp ▸ hvv.1, (k, v), hc.symm, ⟨puts, [], rfl, Variant.refl _, ?_⟩, hp ▸ hvv.2⟩
      exact fun _ h => absurd h not_mem_nil
    · rw [update_of_ne hc] at hp
      obtain ⟨hp1, hp2, q, hq, ⟨pre, post, hputs, hvariant, hpost⟩, hqv⟩ := h.exists_latest c p hp
      refine ⟨hp1, hp2, q, hq, ⟨pre, post ++ [(k, v)], by rw [hputs]; simp, hvariant, fun r hr => ?_⟩, hqv⟩
      rcases mem_append.1 hr with hr | hr
      · exact hpost r hr
      · rw [mem_singleton.1 hr]
        exact fun hkq => hc (hq.symm.trans hkq.canon_eq.symm)
  · by_cases hc : canon [p.1.tree] = canon [k.tree]
    · exact ⟨_, by rw [hc, update_self]⟩
    · rw [update_of_ne hc]
      rcases mem_append.1 hp with hp | hp
      · exact h.exists_pair p hp
      · rw [mem_singleton.1 hp] at hc
        exact absurd rfl hc

namespace GlobalMap

variable {listPsc : Sym} {m : GlobalMap} {puts : List (HeapTerm × HeapTerm)}
  {f : List (Tm Label ℕ) → Option (Tm Label ℕ × Tm Label ℕ)}

/-- The map holds the latest pairs under the classes of their keys. -/
structure Represents (listPsc : Sym) (m : GlobalMap) (puts : List (HeapTerm × HeapTerm))
    (f : List (Tm Label ℕ) → Option (Tm Label ℕ × Tm Label ℕ)) : Prop where
  stores : m.Stores (bpHashCode1 listPsc) (fun t => canon [t]) f
  latest : Latest puts f

section
variable (h : Represents listPsc m puts f)
include h

theorem Represents.exists_put (ha : a < m.top) : ∃ p ∈ puts, canon [p.1.tree] = canon [m.key a] := by
  obtain ⟨-, -, q, hq, hlatest, -⟩ := h.latest.exists_latest _ _ (h.stores.apply_eq a ha)
  exact ⟨q, mem_of_isLatest hlatest, hq⟩

theorem Represents.accepts_put {susp : ℕ → Bool} {v : HeapTerm} (hok : PutOk puts susp k v) {st : Numbering}
    (hst : Numbering.Numbers ⟨st.num, 0⟩ (firsts [] v.tree.occs) []) (ha : a < m.top) :
    keyIdentical ((m.key a).rename .numbered) (st.bound susp k.tree) = true ↔ canon [m.key a] = canon [k.tree] := by
  obtain ⟨p, hp, hpa⟩ := h.exists_put ha
  have hbound : (∀ x, .susp x ∉ (st.bound susp k.tree).occs) ↔ ∀ x ∈ k.tree.occs, susp x = true → x ∈ v.tree.occs := by
    have hnot := susp_notMem_bound hst susp k.tree
    simp only [mem_firsts, not_mem_nil, false_or] at hnot
    exact hnot
  have hshape : shape (st.bound susp k.tree) = shape k.tree := shape_rename _ _
  rw [keyIdentical_iff, hbound, hshape, ← hpa, ← variant_iff_canon, ← shape_eq_of_canon hpa]
  constructor
  · intro hboth
    obtain ⟨heq, hsusp⟩ := hboth
    exact (hok.1 p hp heq).2 hsusp
  · intro hvariant
    have heq := shape_eq_of_canon hvariant.canon_eq
    exact ⟨heq, (hok.1 p hp heq).1 hvariant⟩

theorem Represents.accepts_get (hok : GetOk puts k) (susp : ℕ → Bool) (ha : a < m.top) :
    keyIdentical (k.keyTerm susp) ((m.key a).rename .numbered) = true ↔ canon [m.key a] = canon [k.tree] := by
  obtain ⟨p, hp, hpa⟩ := h.exists_put ha
  unfold HeapTerm.keyTerm
  rw [keyIdentical_live]
  constructor
  · intro hboth
    obtain ⟨heq, -⟩ := hboth
    rw [heq]
  · intro heq
    have hground : k.tree.occs = [] := by
      by_contra hvars
      exact hok hvars p hp (variant_iff_canon.2 (hpa.trans heq))
    exact ⟨(eq_of_shape_eq (shape_eq_of_canon heq) hground).symm, hground⟩

end

theorem represents_start : Represents listPsc start [] fun _ => none :=
  ⟨PairTable.stores_empty (by decide) _ _ _, latest_nil⟩

section
variable (h : Represents listPsc m puts f) {susp : ℕ → Bool}
include h

theorem Represents.put {k v : HeapTerm} (href : k.isRef susp = false) (hok : PutOk puts susp k v) (malloc : Bool) :
    ∃ m' f', put listPsc m susp k v malloc = some (.ok m') ∧ Represents listPsc m' (puts ++ [(k, v)]) f' := by
  classical
  obtain ⟨hval, hnumbers⟩ := val_spec v.tree
  set valCp := numberVarCopyToParea ⟨fun _ => none, 0⟩ v.tree with hvalCp
  have hlookup := h.stores.lookup_eq (bpHashCode1 listPsc k.tree)
    (fun t => keyIdentical (t.rename .numbered) (valCp.2.bound susp k.tree)) (canon [k.tree])
    (fun a ha => h.accepts_put hok hnumbers ha)
    (fun a ha heq => bpHashCode1_of_shape listPsc (shape_eq_of_canon heq))
  unfold GlobalMap.put
  rw [if_neg (by rw [href]; exact Bool.false_ne_true)]
  simp only [← hvalCp]
  rcases hlookup with ⟨hnone, hfree⟩ | ⟨a, ha, hsome, hkey, hpair⟩
  · have hkeyCp : (numberVarCopyToParea ⟨valCp.2.num, 0⟩ k.tree).1 = k.tree.rename (keyNumber k v) :=
      (copied_spec hnumbers).term_eq
    obtain ⟨hrise, hvariant⟩ := rising_rename (hok.2 (h.latest.not_variant hfree))
    rw [← hkeyCp] at hrise hvariant
    set keyCp := numberVarCopyToParea ⟨valCp.2.num, 0⟩ k.tree
    have hhash : bpHashCode1 listPsc k.tree = bpHashCode1 listPsc keyCp.1 :=
      bpHashCode1_of_shape listPsc (shape_eq_of_canon hvariant.canon_eq)
    rw [hvariant.canon_eq] at hfree
    have hpush := h.stores.push hfree valCp.1
    obtain ⟨m', hexpand, hstores⟩ := hpush.expandIf
      (decide (2 * (m.push (bpHashCode1 listPsc keyCp.1) keyCp.1 valCp.1).count >
        (m.push (bpHashCode1 listPsc keyCp.1) keyCp.1 valCp.1).chains.size) && malloc)
      (Nat.zero_lt_of_lt (lt_bpHsize (3 * (m.push (bpHashCode1 listPsc keyCp.1) keyCp.1 valCp.1).chains.size)))
    refine ⟨m', _, ?_, hstores, ?_⟩
    · rw [hnone]
      simp only [Option.bind_eq_bind, Option.bind_some, hhash, GlobalMap.expand, hexpand]
    · rw [← hvariant.canon_eq]
      exact h.latest.put hrise hval
  · refine ⟨m.replace a valCp.1, _, ?_, h.stores.replace ha valCp.1, ?_⟩
    · rw [hsome]
      rfl
    · rw [hkey]
      exact h.latest.put (h.latest.exists_latest _ _ hpair).1 hval

/-- A read of a key that is no free variable is right exactly when it meets the condition. -/
theorem Represents.get_iff (href : k.isRef susp = false) (slot : ℕ → Tm Label ℕ) (heapTop : ℕ) :
    ReadsLatest puts k (get listPsc m susp k slot heapTop) ↔ GetOk puts k := by
  unfold GlobalMap.get
  rw [if_neg (by rw [href]; exact Bool.false_ne_true)]
  by_cases hok : GetOk puts k
  · refine iff_of_true ?_ hok
    rcases h.stores.lookup_eq (bpHashCode1 listPsc k.tree)
      (fun t => keyIdentical (k.keyTerm susp) (t.rename .numbered)) (canon [k.tree])
      (fun a ha => h.accepts_get hok susp ha)
      (fun a ha heq => bpHashCode1_of_shape listPsc (shape_eq_of_canon heq)) with
      ⟨hnone, hfree⟩ | ⟨a, ha, hsome, hkey, hpair⟩
    · rw [hnone]
      exact h.latest.not_variant hfree
    · rw [hsome]
      obtain ⟨-, hrise, q, hq, hlatest, hvariant⟩ := h.latest.exists_latest _ _ hpair
      obtain ⟨pre, post, hputs, -, hpost⟩ := hlatest
      have hqk : Variant [q.1.tree] [k.tree] := variant_iff_canon.2 hq
      have hback := rebuilt_of_rising hrise slot heapTop
      refine ⟨q, ⟨pre, post, hputs, hqk, fun p hp hpk => hpost p hp ?_⟩, ?_⟩
      · exact variant_iff_canon.2 (hpk.canon_eq.trans hq.symm)
      · exact variant_iff_canon.2 (hvariant.canon_eq.trans hback.canon_eq)
  · refine iff_of_false (fun hreads => hok fun hvars => ?_) hok
    -- no stored key is identical to one with variables
    have hno : ∀ a < m.top, keyIdentical (k.keyTerm susp) ((m.key a).rename .numbered) = false := fun a _ =>
      Bool.eq_false_iff.2 fun heq => hvars ((keyIdentical_live susp _ _).1 heq).2
    have hnone := h.stores.lookup_none (bpHashCode1 listPsc k.tree)
      (fun t => keyIdentical (k.keyTerm susp) (t.rename .numbered)) hno
    rw [hnone] at hreads
    exact hreads

end

/-! ## Listings -/

theorem map_listing {α β : Type*} {g : Tm Label ℕ × Tm Label ℕ → β} {g' : α → β}
    {rebuild : Unnumber → Tm Label ℕ × Tm Label ℕ → α × Unnumber} (h : ∀ p ∈ m.pairs, ∀ st, g' (rebuild st p).1 = g p)
    (st : Unnumber) : (listing rebuild m st).map g' = m.pairs.reverse.map g := by
  have hgen : ∀ (ps : List (Tm Label ℕ × Tm Label ℕ)) (l : List α × Unnumber),
      (∀ p ∈ ps, ∀ st, g' (rebuild st p).1 = g p) →
      (ps.foldl (fun l p => ((rebuild l.2 p).1 :: l.1, (rebuild l.2 p).2)) l).1.map g' =
        ps.reverse.map g ++ l.1.map g' := by
    intro ps
    induction ps with
    | nil => exact fun l _ => rfl
    | cons p ps ih =>
      intro l hps
      rw [forall_mem_cons] at hps
      rw [foldl_cons, ih _ hps.2, map_cons, hps.1, reverse_cons, List.map_append, append_assoc]
      rfl
  unfold listing
  rw [hgen m.pairs ([], st) h, map_nil, append_nil]

theorem Represents.classes (h : Represents listPsc m puts f) : (m.pairs.reverse.map fun p => canon [p.1]).Nodup ∧
      ∀ p ∈ puts, canon [p.1.tree] ∈ m.pairs.reverse.map fun p => canon [p.1] := by
  obtain ⟨hnodup, hmem⟩ := h.stores.pairs
  refine ⟨by rwa [map_reverse, nodup_reverse], fun p hp => ?_⟩
  obtain ⟨q, hq⟩ := h.latest.exists_pair p hp
  have hcls := h.stores.cls_eq hq
  rw [← hcls]
  exact mem_map_of_mem (mem_reverse.2 ((hmem q).2 (hcls ▸ hq)))

theorem Represents.of_mem_pairs (h : Represents listPsc m puts f) {p : Tm Label ℕ × Tm Label ℕ} (hp : p ∈ m.pairs) :
    Rising p.1 ∧ Rising p.2 ∧ ∃ q, canon [q.1.tree] = canon [p.1] ∧ IsLatest puts q.1 q ∧ Variant [q.2.tree] [p.2] :=
  h.latest.exists_latest _ _ ((h.stores.pairs.2 p).1 hp)

theorem canon_rebuilt (ht : Rising t) (st : Unnumber) : canon [(unnumberVarTermOpt (prepare st) t).1] = canon [t] :=
  (rebuilt_of_rising ht st.slot st.heapTop).canon_eq.symm

theorem Represents.map_keys (h : Represents listPsc m puts f) (st : Unnumber) :
    (keys m st).map (fun k => canon [k]) = m.pairs.reverse.map fun p => canon [p.1] :=
  map_listing (fun _ hp st => canon_rebuilt (h.of_mem_pairs hp).1 st) st

theorem Represents.map_list (h : Represents listPsc m puts f) (st : Unnumber) :
    (list m st).map (fun q => (canon [q.1], canon [q.2])) = m.pairs.reverse.map fun p => (canon [p.1], canon [p.2]) :=
  map_listing (fun _ hp st => Prod.ext (canon_rebuilt (h.of_mem_pairs hp).1 st)
    (canon_rebuilt (h.of_mem_pairs hp).2.1 _)) st

end GlobalMap

/-! ## Runs -/

open GlobalMap in
theorem GlobalMapRun.represents {listPsc : Sym} {puts : List (HeapTerm × HeapTerm)} {m : GlobalMap}
    (h : GlobalMapRun listPsc PutOk puts m) : ∃ f, Represents listPsc m puts f := by
  induction h with
  | start => exact ⟨_, represents_start⟩
  | @put puts m m' _ susp k v malloc hok hput ih =>
    obtain ⟨f, hrep⟩ := ih
    cases href : k.isRef susp with
    | true =>
      rw [GlobalMap.put, if_pos href] at hput
      cases hput
    | false =>
      obtain ⟨m'', f', hput', hrep'⟩ := hrep.put href hok malloc
      rw [hput'] at hput
      cases hput
      exact ⟨f', hrep'⟩

/-- The keys of a listing: each key that was put, once and up to variants. -/
def ListsKeys (puts : List (HeapTerm × HeapTerm)) (keys : List (Tm Label ℕ)) : Prop :=
  keys.Pairwise (fun k k' => ¬Variant [k] [k']) ∧ (∀ k ∈ keys, ∃ p ∈ puts, Variant [p.1.tree] [k]) ∧
    ∀ p ∈ puts, ∃ k ∈ keys, Variant [p.1.tree] [k]

/-- A read is right exactly when it meets its condition; every key that was put is listed once, up to variants, and with
a variant of the value that was put last under it; and the next pair can be put. -/
theorem globalMapRun_refines {listPsc : Sym} {puts : List (HeapTerm × HeapTerm)} {m : GlobalMap}
    (h : GlobalMapRun listPsc GlobalMap.PutOk puts m) :
    (∀ susp k slot heapTop, k.isRef susp = false →
      (ReadsLatest puts k (GlobalMap.get listPsc m susp k slot heapTop) ↔ GlobalMap.GetOk puts k)) ∧
    (∀ st, ListsKeys puts (GlobalMap.keys m st) ∧ ListsKeys puts ((GlobalMap.list m st).map Prod.fst) ∧
      ∀ q ∈ GlobalMap.list m st, ∃ p, IsLatest puts p.1 p ∧ Variant [p.1.tree] [q.1] ∧ Variant [p.2.tree] [q.2]) ∧
    ∀ susp k v malloc, k.isRef susp = false → GlobalMap.PutOk puts susp k v →
      ∃ m', GlobalMap.put listPsc m susp k v malloc = some (.ok m') := by
  obtain ⟨f, hrep⟩ := h.represents
  have hlists : ∀ keys : List (Tm Label ℕ), keys.map (fun k => canon [k]) = m.pairs.reverse.map (fun p => canon [p.1]) →
      ListsKeys puts keys := fun keys hkeys => by
    obtain ⟨hnodup, hmem⟩ := hrep.classes
    rw [← hkeys] at hnodup hmem
    rw [List.Nodup, pairwise_map] at hnodup
    refine ⟨hnodup.imp fun hne hvariant => hne hvariant.canon_eq, fun k hk => ?_, fun p hp => ?_⟩
    · have hin : canon [k] ∈ keys.map fun k => canon [k] := mem_map_of_mem hk
      rw [hkeys, mem_map] at hin
      obtain ⟨q, hq, hqk⟩ := hin
      obtain ⟨-, -, p, hp, hlatest, -⟩ := hrep.of_mem_pairs (mem_reverse.1 hq)
      exact ⟨p, mem_of_isLatest hlatest, variant_iff_canon.2 (hp.trans hqk)⟩
    · obtain ⟨k, hk, hkp⟩ := mem_map.1 (hmem p hp)
      exact ⟨k, hk, variant_iff_canon.2 hkp.symm⟩
  refine ⟨fun susp k slot heapTop href => hrep.get_iff href slot heapTop, fun st => ?_,
    fun susp k v malloc href hok => ?_⟩
  · have hlist := hrep.map_list st
    refine ⟨hlists _ (hrep.map_keys st), hlists _ ?_, fun q hq => ?_⟩
    · have hfst := congrArg (List.map Prod.fst) hlist
      simp only [map_map] at hfst ⊢
      exact hfst
    · have hin : (canon [q.1], canon [q.2]) ∈ (GlobalMap.list m st).map fun q => (canon [q.1], canon [q.2]) :=
        mem_map_of_mem hq
      rw [hlist, mem_map] at hin
      obtain ⟨r, hr, hrq⟩ := hin
      rw [Prod.mk.injEq] at hrq
      obtain ⟨-, -, p, hp, hlatest, hvariant⟩ := hrep.of_mem_pairs (mem_reverse.1 hr)
      exact ⟨p, hlatest, variant_iff_canon.2 (hp.trans hrq.1), variant_iff_canon.2 (hvariant.canon_eq.trans hrq.2)⟩
  · obtain ⟨m', -, hput, -⟩ := hrep.put href hok malloc
    exact ⟨m', hput⟩

theorem globalMapRun_refines_one_pair : ∃ m, GlobalMapRun 24 GlobalMap.PutOk [(.str 16 (.atm 10) [], .var 1)] m ∧
    ReadsLatest [(.str 16 (.atm 10) [], .var 1)] (.str 16 (.atm 10) [])
      (GlobalMap.get 24 m (fun _ => false) (.str 16 (.atm 10) []) (fun _ => .var 0) 9) := by
  have hok : GlobalMap.PutOk [] (fun _ => false) (.str 16 (.atm 10) []) (.var 1) :=
    ⟨fun _ h => absurd h not_mem_nil, fun _ => .nil⟩
  obtain ⟨m, hput⟩ := (globalMapRun_refines (@GlobalMapRun.start 24 GlobalMap.PutOk)).2.2 _ _ _ true rfl hok
  have hrun := GlobalMapRun.start.put hok hput
  exact ⟨m, hrun, ((globalMapRun_refines hrun).1 _ _ _ _ rfl).2 fun hvars => absurd rfl hvars⟩

/-- The pair of `f(X)` and an atom, which the key `f(Y)` does not find. -/
theorem globalMapRun_variable_key : ∃ m, GlobalMapRun 24 (fun _ _ _ _ => True) [(.str 16 (.var 0) [], .atm 10)] m ∧
    GlobalMap.get 24 m (fun _ => false) (.str 16 (.var 5) []) (fun _ => .var 0) 9 = some (.ok none) ∧
    Variant [(HeapTerm.str 16 (.var 0) []).tree] [(HeapTerm.str 16 (.var 5) []).tree] := by
  have hput : ∃ m, GlobalMap.put 24 .start (fun _ => false) (.str 16 (.var 0) []) (.atm 10) true = some (.ok m) ∧
      GlobalMap.get 24 m (fun _ => false) (.str 16 (.var 5) []) (fun _ => .var 0) 9 = some (.ok none) := ⟨_, rfl, rfl⟩
  obtain ⟨m, hput, hget⟩ := hput
  exact ⟨m, GlobalMapRun.start.put trivial hput, hget, keyCopy_eq_iff.1 (by decide)⟩

end Picat
