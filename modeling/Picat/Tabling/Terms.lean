import Mathlib.Data.Nat.Bitwise
import Picat.Lib.Variants

/-!
# Terms on the heap and in the table area

* `bpHashval` : the hash code of a term, computed on the heap.
-/

namespace Picat

open Variants List

/-! ## Hash codes -/

def hashBits : ℕ := 0x0fffffff

def multiplier : ℕ := 37

def tagMask : ℕ := 0x8000000000000003

def intTag : ℕ := 0x8000000000000002

/-- The hash code of an atom or a one-word integer, and the seed of a symbol, from their words. -/
def wordHash (w : ℕ) : ℕ := (w &&& hashBits) >>> 2

def rotl32 (x : BitVec 32) (r : ℕ) : BitVec 32 := x <<< r ||| x >>> (32 - r)

def fmix (h : BitVec 32) : BitVec 32 :=
  let h := h ^^^ h >>> 16
  let h := h * 0x85ebca6b
  let h := h ^^^ h >>> 13
  let h := h * 0xc2b2ae35
  h ^^^ h >>> 16

/-- `MurmurHash3_x86_32_uint32` -/
def murmurHash3 (key seed : BitVec 32) : BitVec 32 :=
  let k1 := key * 0xcc9e2d51
  let k1 := rotl32 k1 15
  let k1 := k1 * 0x1b873593
  let h1 := seed ^^^ k1
  let h1 := rotl32 h1 13
  let h1 := h1 * 5 + 0xe6546b64
  let h1 := h1 ^^^ 4
  fmix h1

def mixHash (hcodeSum thisHcode : ℕ) : ℕ :=
  if thisHcode ≠ 0 then (murmurHash3 (BitVec.ofNat 32 thisHcode) (BitVec.ofNat 32 hcodeSum)).toNat else hcodeSum

def consHash (thisHcode hcodeSum : ℕ) : ℕ :=
  if thisHcode ≠ 0 then (thisHcode + hcodeSum * multiplier + 1) &&& hashBits else hcodeSum

theorem and_hashBits (n : ℕ) : n &&& hashBits = n % 2 ^ 28 := Nat.and_two_pow_sub_one_eq_mod n 28

@[simp] theorem and_hashBits_and_hashBits (n : ℕ) : n &&& hashBits &&& hashBits = n &&& hashBits := by
  rw [and_hashBits, and_hashBits, Nat.mod_mod]

@[simp] theorem zero_and_hashBits : 0 &&& hashBits = 0 := Nat.zero_and _

@[simp] theorem wordHash_and_hashBits (w : ℕ) : wordHash w &&& hashBits = wordHash w := by
  rw [wordHash, and_hashBits, and_hashBits, Nat.shiftRight_eq_div_pow]
  exact Nat.mod_eq_of_lt (lt_of_le_of_lt (Nat.div_le_self ..) (Nat.mod_lt _ (by decide)))

theorem consHash_and_hashBits {h s : ℕ} (hs : s &&& hashBits = s) : consHash h s &&& hashBits = consHash h s := by
  rw [consHash]
  split_ifs
  · exact and_hashBits_and_hashBits _
  · exact hs

/-! ## Terms -/

/-- A symbol record, by its address; its arity is the number of arguments that follow it in a term. -/
abbrev Sym := ℕ

/-- The word two cells in front of a compound term of the table area, as its low bits and its top bit. -/
structure HashCell where
  hcode : ℕ
  ground : Bool
  deriving DecidableEq

/-- A term in the table area: `atm` holds the word of an atom or a one-word integer. -/
inductive TabledTerm
  | var (n : ℕ)
  | atm (w : ℕ)
  | lst (cell : HashCell) (car cdr : TabledTerm)
  | str (cell : HashCell) (sym : Sym) (arg : TabledTerm) (args : List TabledTerm)

inductive Label
  | atm (w : ℕ)
  | lst
  | str (sym : Sym)
  deriving DecidableEq

namespace TabledTerm

theorem induct {P : TabledTerm → Prop} (var : ∀ n, P (var n)) (atm : ∀ w, P (atm w))
    (lst : ∀ cell car cdr, P car → P cdr → P (lst cell car cdr))
    (str : ∀ cell sym arg args, P arg → (∀ t ∈ args, P t) → P (str cell sym arg args)) (t : TabledTerm) : P t :=
  @TabledTerm.rec P (fun ts => ∀ t ∈ ts, P t) var atm lst str
    (fun _ h => absurd h not_mem_nil) (fun _ _ ht hts => forall_mem_cons.2 ⟨ht, hts⟩) t

mutual

def same : TabledTerm → TabledTerm → Bool
  | var n, var m => n == m
  | atm w, atm v => w == v
  | lst cell car cdr, lst cell' car' cdr' => cell == cell' && car.same car' && cdr.same cdr'
  | str cell sym arg args, str cell' sym' arg' args' =>
    cell == cell' && sym == sym' && arg.same arg' && sameArgs args args'
  | _, _ => false

def sameArgs : List TabledTerm → List TabledTerm → Bool
  | [], [] => true
  | t :: ts, u :: us => t.same u && sameArgs ts us
  | _, _ => false

end

theorem sameArgs_iff_of {ts us : List TabledTerm} (h : ∀ t ∈ ts, ∀ u, t.same u = true ↔ t = u) :
    sameArgs ts us = true ↔ ts = us := by
  induction ts generalizing us with
  | nil => cases us <;> simp [sameArgs]
  | cons t ts ih =>
    rw [forall_mem_cons] at h
    cases us <;> simp [sameArgs, h.1, ih h.2]

theorem same_iff {t u : TabledTerm} : t.same u = true ↔ t = u := by
  induction t using TabledTerm.induct generalizing u with
  | var n => cases u <;> simp [same]
  | atm w => cases u <;> simp [same]
  | lst cell car cdr ihcar ihcdr => cases u <;> simp [same, ihcar, ihcdr, and_assoc]
  | str cell sym arg args iharg ihargs =>
    cases u <;> simp [same, iharg, sameArgs_iff_of fun t ht u => @ihargs t ht u, and_assoc]

instance : DecidableEq TabledTerm := fun _ _ => decidable_of_iff _ same_iff

def hashvalOfNumberedTerm : TabledTerm → ℕ
  | var _ => 0
  | atm w => wordHash w
  | lst cell _ _ => cell.hcode &&& hashBits
  | str cell _ _ _ => cell.hcode &&& hashBits

def isGroundNumberedTerm : TabledTerm → Bool
  | var _ => false
  | atm _ => true
  | lst cell _ _ => cell.ground
  | str cell _ _ _ => cell.ground

/-- The arguments of a call, an answer or a structure from the second one on. -/
def mixArgs (hcodeSum : ℕ) (args : List TabledTerm) : ℕ :=
  args.foldl (fun h t => mixHash h t.hashvalOfNumberedTerm) hcodeSum

mutual

/-- Every cell in front of a compound term tells the truth about it. -/
def Sealed : TabledTerm → Prop
  | var _ => True
  | atm _ => True
  | lst cell car cdr =>
    cell.hcode = consHash car.hashvalOfNumberedTerm cdr.hashvalOfNumberedTerm ∧
    cell.ground = (car.isGroundNumberedTerm && cdr.isGroundNumberedTerm) ∧ car.Sealed ∧ cdr.Sealed
  | str cell sym arg args =>
    cell.hcode = mixArgs (wordHash sym + arg.hashvalOfNumberedTerm) args &&& hashBits ∧
    cell.ground = (arg.isGroundNumberedTerm && args.all isGroundNumberedTerm) ∧ arg.Sealed ∧ SealedArgs args

def SealedArgs : List TabledTerm → Prop
  | [] => True
  | t :: ts => t.Sealed ∧ SealedArgs ts

end

mutual

def tree : TabledTerm → Tm Label ℕ
  | var n => .var n
  | atm w => .app (.atm w) []
  | lst _ car cdr => .app .lst [car.tree, cdr.tree]
  | str _ sym arg args => .app (.str sym) (arg.tree :: trees args)

def trees : List TabledTerm → List (Tm Label ℕ)
  | [] => []
  | t :: ts => t.tree :: trees ts

end

theorem sealedArgs_iff {ts : List TabledTerm} : SealedArgs ts ↔ ∀ t ∈ ts, t.Sealed := by
  induction ts with
  | nil => simp [SealedArgs]
  | cons t ts ih => rw [SealedArgs, ih, forall_mem_cons]

theorem trees_eq_map (ts : List TabledTerm) : trees ts = ts.map tree := by
  induction ts with
  | nil => rfl
  | cons t ts ih => rw [trees, ih, map_cons]

theorem Sealed.occs_eq_nil {t : TabledTerm} (h : t.Sealed) (hground : t.isGroundNumberedTerm = true) :
    t.tree.occs = [] := by
  induction t using TabledTerm.induct with
  | var n => cases hground
  | atm w => rfl
  | lst cell car cdr ihcar ihcdr =>
    obtain ⟨-, hcell, hcar, hcdr⟩ := h
    have hboth : car.isGroundNumberedTerm = true ∧ cdr.isGroundNumberedTerm = true := by
      rw [← Bool.and_eq_true, ← hcell]
      exact hground
    simp [tree, Tm.occs, Tm.vars, ihcar hcar hboth.1, ihcdr hcdr hboth.2]
  | str cell sym arg args iharg ihargs =>
    obtain ⟨-, hcell, harg, hargs⟩ := h
    have hboth : arg.isGroundNumberedTerm = true ∧ args.all isGroundNumberedTerm = true := by
      rw [← Bool.and_eq_true, ← hcell]
      exact hground
    rw [sealedArgs_iff] at hargs
    rw [tree, Tm.occs, Tm.vars, iharg harg hboth.1, nil_append, Tm.vars_eq_flatMap, trees_eq_map,
      flatMap_map, flatMap_eq_nil_iff]
    exact fun t ht => ihargs t ht (hargs t ht) (all_eq_true.1 hboth.2 t ht)

theorem eq_of_map_tree {ts us : List TabledTerm} (hinj : ∀ t ∈ ts, ∀ u ∈ us, t.tree = u.tree → t = u)
    (h : ts.map tree = us.map tree) : ts = us := by
  induction ts generalizing us with
  | nil => exact (map_eq_nil_iff.1 h.symm).symm
  | cons t ts ih =>
    obtain ⟨u, us, rfl, hu, hus⟩ := map_eq_cons_iff.1 h.symm
    rw [hinj t (mem_cons_self ..) u (mem_cons_self ..) hu.symm,
      ih (fun t ht u hu => hinj t (mem_cons_of_mem _ ht) u (mem_cons_of_mem _ hu)) hus.symm]

theorem Sealed.eq_of_tree {t u : TabledTerm} (ht : t.Sealed) (hu : u.Sealed) (h : t.tree = u.tree) : t = u := by
  induction t using TabledTerm.induct generalizing u with
  | var n => cases u <;> simp_all [tree]
  | atm w => cases u <;> simp_all [tree]
  | lst cell car cdr ihcar ihcdr =>
    cases u with
    | lst cell' car' cdr' =>
      simp only [tree, Tm.app.injEq, List.cons.injEq, true_and, and_true] at h
      obtain rfl := ihcar ht.2.2.1 hu.2.2.1 h.1
      obtain rfl := ihcdr ht.2.2.2 hu.2.2.2 h.2
      have hcell : cell = cell' := by
        cases cell
        cases cell'
        simp_all [Sealed]
      rw [hcell]
    | _ => simp [tree] at h
  | str cell sym arg args iharg ihargs =>
    cases u with
    | str cell' sym' arg' args' =>
      simp only [tree, Tm.app.injEq, Label.str.injEq, List.cons.injEq, trees_eq_map] at h
      obtain ⟨rfl, harg, hargs⟩ := h
      obtain ⟨hcell, hground, hsarg, hsargs⟩ := ht
      obtain ⟨hcell', hground', hsarg', hsargs'⟩ := hu
      rw [sealedArgs_iff] at hsargs hsargs'
      obtain rfl := iharg hsarg hsarg' harg
      have hargs' : args = args' :=
        eq_of_map_tree (fun t ht u hu => ihargs t ht (hsargs t ht) (hsargs' u hu)) hargs
      subst hargs'
      have hcells : cell = cell' := by
        cases cell
        cases cell'
        simp_all
      rw [hcells]
    | _ => simp [tree] at h

end TabledTerm

/-- A ground compound term of the table area, which terms on the heap may refer to. -/
structure Interned where
  term : TabledTerm
  isSealed : term.Sealed
  ground : term.isGroundNumberedTerm = true

/-- A term on the heap; a variable is told by its address. -/
inductive HeapTerm
  | var (x : ℕ)
  | atm (w : ℕ)
  | lst (car cdr : HeapTerm)
  | str (sym : Sym) (arg : HeapTerm) (args : List HeapTerm)
  | tab (t : Interned)

namespace HeapTerm

theorem induct {P : HeapTerm → Prop} (var : ∀ x, P (var x)) (atm : ∀ w, P (atm w))
    (lst : ∀ car cdr, P car → P cdr → P (lst car cdr))
    (str : ∀ sym arg args, P arg → (∀ t ∈ args, P t) → P (str sym arg args)) (tab : ∀ t, P (tab t)) (t : HeapTerm) : P t :=
  @HeapTerm.rec P (fun ts => ∀ t ∈ ts, P t) var atm lst str tab
    (fun _ h => absurd h not_mem_nil) (fun _ _ ht hts => forall_mem_cons.2 ⟨ht, hts⟩) t

mutual

def tree : HeapTerm → Tm Label ℕ
  | var x => .var x
  | atm w => .app (.atm w) []
  | lst car cdr => .app .lst [car.tree, cdr.tree]
  | str sym arg args => .app (.str sym) (arg.tree :: trees args)
  | tab t => t.term.tree

def trees : List HeapTerm → List (Tm Label ℕ)
  | [] => []
  | t :: ts => t.tree :: trees ts

end

end HeapTerm

/-! ## The hash code of a term on the heap -/

/-- The part of a list that lies in the table area, which `bp_hashval_list` goes through cell by cell. -/
def bpHashvalTabledList : TabledTerm → ℕ
  | .lst _ car cdr => consHash car.hashvalOfNumberedTerm (bpHashvalTabledList cdr)
  | t => t.hashvalOfNumberedTerm

mutual

/-- `bp_hashval`; `bp_hashval_list` reverses the list and comes back from its tail, element by element. -/
def bpHashval : HeapTerm → ℕ
  | .var _ => 0
  | .atm w => wordHash w
  | .tab t => t.term.hashvalOfNumberedTerm
  | .lst car (.tab t) => consHash (bpHashval car) (bpHashvalTabledList t.term)
  | .lst car cdr => consHash (bpHashval car) (bpHashval cdr)
  | .str sym arg args => bpHashvalArgs (wordHash sym + bpHashval arg) args &&& hashBits

def bpHashvalArgs (hcodeSum : ℕ) : List HeapTerm → ℕ
  | [] => hcodeSum
  | t :: ts => bpHashvalArgs (mixHash hcodeSum (bpHashval t)) ts

end

theorem bpHashvalArgs_eq_foldl (hcodeSum : ℕ) (args : List HeapTerm) :
    bpHashvalArgs hcodeSum args = args.foldl (fun h t => mixHash h (bpHashval t)) hcodeSum := by
  induction args generalizing hcodeSum with
  | nil => rfl
  | cons t ts ih => rw [bpHashvalArgs, ih, foldl_cons]

namespace TabledTerm

@[simp] theorem hashvalOfNumberedTerm_and_hashBits (t : TabledTerm) :
    t.hashvalOfNumberedTerm &&& hashBits = t.hashvalOfNumberedTerm := by
  cases t <;> simp [hashvalOfNumberedTerm]

theorem Sealed.hashval_lst {cell : HashCell} {car cdr : TabledTerm} (h : (lst cell car cdr).Sealed) :
    (lst cell car cdr).hashvalOfNumberedTerm = consHash car.hashvalOfNumberedTerm cdr.hashvalOfNumberedTerm := by
  rw [hashvalOfNumberedTerm, h.1, consHash_and_hashBits (hashvalOfNumberedTerm_and_hashBits cdr)]

theorem Sealed.bpHashvalTabledList_eq {t : TabledTerm} (h : t.Sealed) :
    bpHashvalTabledList t = t.hashvalOfNumberedTerm := by
  induction t using TabledTerm.induct with
  | lst cell car cdr _ ih => rw [bpHashvalTabledList, ih h.2.2.2, h.hashval_lst]
  | _ => rfl

end TabledTerm

@[simp] theorem bpHashval_lst (car cdr : HeapTerm) : bpHashval (.lst car cdr) = consHash (bpHashval car) (bpHashval cdr) := by
  cases cdr with
  | tab t => rw [bpHashval, bpHashval, t.isSealed.bpHashvalTabledList_eq]
  | _ => rfl

theorem bpHashval_and_hashBits (t : HeapTerm) : bpHashval t &&& hashBits = bpHashval t := by
  induction t using HeapTerm.induct with
  | var x => exact zero_and_hashBits
  | atm w => exact wordHash_and_hashBits w
  | lst car cdr _ ih => rw [bpHashval_lst, consHash_and_hashBits ih]
  | str sym arg args _ _ => rw [bpHashval, and_hashBits_and_hashBits]
  | tab t => exact TabledTerm.hashvalOfNumberedTerm_and_hashBits t.term

/-! # Rebuilding terms from the table area -/

/-- `global_unnumbervar_max`, what the slots below `global_unnumbervar_ptr` hold, and the next variable on the heap. -/
structure Unnumber where
  max : ℤ
  slot : ℕ → Tm Label ℕ
  heapTop : ℕ

/-- `PREPARE_UNNUMBER_TERM`: the slots hold whatever was there. -/
def prepareUnnumberTerm (slot : ℕ → Tm Label ℕ) (heapTop : ℕ) : Unnumber := ⟨-1, slot, heapTop⟩

mutual

def unnumberVarTabledTerm (st : Unnumber) : TabledTerm → Tm Label ℕ × Unnumber
  | .var n =>
    if (n : ℤ) > st.max then
      (.var st.heapTop, ⟨n, Function.update st.slot n (.var st.heapTop), st.heapTop + 1⟩)
    else (st.slot n, st)
  | .atm w => (.app (.atm w) [], st)
  | .lst cell car cdr =>
    if cell.ground then ((TabledTerm.lst cell car cdr).tree, st)
    else
      let head := unnumberVarTabledTerm st car
      let tail := unnumberVarTabledTerm head.2 cdr
      (.app .lst [head.1, tail.1], tail.2)
  | .str cell sym arg args =>
    if cell.ground then ((TabledTerm.str cell sym arg args).tree, st)
    else
      let first := unnumberVarTabledTerm st arg
      let rest := unnumberArgs first.2 args
      (.app (.str sym) (first.1 :: rest.1), rest.2)

def unnumberArgs (st : Unnumber) : List TabledTerm → List (Tm Label ℕ) × Unnumber
  | [] => ([], st)
  | t :: ts =>
    let first := unnumberVarTabledTerm st t
    let rest := unnumberArgs first.2 ts
    (first.1 :: rest.1, rest.2)

end

/-- The variables that stand for numbers, in the order of these. -/
def newVar (base : ℕ) (seen : List ℕ) (n : ℕ) : ℕ := base + seen.idxOf n

/-- The numbers seen have their variables, and all greater ones are new. -/
structure Unnumber.Knows (st : Unnumber) (base : ℕ) (seen : List ℕ) : Prop where
  slot_eq : ∀ n ∈ seen, st.slot n = .var (newVar base seen n)
  max_lt : ∀ n : ℕ, (n : ℤ) > st.max ↔ ∀ m ∈ seen, m < n
  heapTop_eq : st.heapTop = base + seen.length

theorem knows_prepare (slot : ℕ → Tm Label ℕ) (heapTop : ℕ) : (prepareUnnumberTerm slot heapTop).Knows heapTop [] :=
  ⟨fun _ h => absurd h not_mem_nil, fun n => by simp [prepareUnnumberTerm]; omega, rfl⟩

/-- What rebuilding makes of a term, when `seen` have been seen before it. -/
structure Rebuilt (base : ℕ) (seen : List ℕ) (t : Tm Label ℕ) (r : Tm Label ℕ × Unnumber) : Prop where
  tree_eq : r.1 = t.rename (newVar base (firsts seen t.occs))
  knows : r.2.Knows base (firsts seen t.occs)

variable {base : ℕ} {seen : List ℕ} {st : Unnumber}

theorem newVar_of_extends {base : ℕ} {seen seen' : List ℕ} (h : seen <+: seen') {n : ℕ} (hn : n ∈ seen) :
    newVar base seen' n = newVar base seen n := congrArg (base + ·) (idxOf_prefix_eq h hn)

theorem Rebuilt.tree_eq_of_extends {seen' : List ℕ} {t : Tm Label ℕ} {r : Tm Label ℕ × Unnumber}
    (h : Rebuilt base seen t r) (hext : firsts seen t.occs <+: seen') : r.1 = t.rename (newVar base seen') := by
  rw [h.tree_eq]
  exact Tm.rename_congr t fun n hn => (newVar_of_extends hext (mem_firsts.2 (.inr hn))).symm

theorem rebuilt_of_ground {t : Tm Label ℕ} (hst : st.Knows base seen)
    (ht : t.occs = []) : Rebuilt base seen t (t, st) := by
  refine ⟨?_, ?_⟩
  · rw [Tm.rename_congr (τ := id) t fun n hn => by simp [ht] at hn, Tm.rename_id]
  · rw [ht]
    exact hst

theorem unnumber_var (hst : st.Knows base seen) (n : ℕ)
    (hrise : (firsts seen [n]).Pairwise (· < ·)) : Rebuilt base seen (.var n) (unnumberVarTabledTerm st (.var n)) := by
  rw [unnumberVarTabledTerm]
  by_cases hn : n ∈ seen
  · have hold : ¬((n : ℤ) > st.max) := fun h => lt_irrefl n ((hst.max_lt n).1 h n hn)
    have hfirsts : firsts seen (Tm.occs (.var n : Tm Label ℕ)) = seen := firsts_eq_self fun m hm => by
      rwa [mem_singleton.1 hm]
    rw [if_neg hold]
    refine ⟨?_, hfirsts.symm ▸ hst⟩
    rw [hfirsts]
    exact hst.slot_eq n hn
  · have hfirsts : firsts seen [n] = seen ++ [n] := by simp [firsts, hn]
    rw [hfirsts, pairwise_append] at hrise
    have hnew : (n : ℤ) > st.max := (hst.max_lt n).2 fun m hm => hrise.2.2 m hm n (mem_singleton_self n)
    have hvar : newVar base (seen ++ [n]) n = st.heapTop := by
      rw [newVar, idxOf_append_of_notMem hn, hst.heapTop_eq]
      simp
    rw [if_pos hnew]
    refine ⟨?_, ?_⟩
    · change Tm.var st.heapTop = Tm.var (newVar base (firsts seen [n]) n)
      rw [hfirsts, hvar]
    · change Unnumber.Knows _ base (firsts seen [n])
      rw [hfirsts]
      refine ⟨fun m hm => ?_, fun k => ?_, ?_⟩
      · by_cases hmn : m = n
        · rw [hmn, hvar]
          exact Function.update_self ..
        · have hms : m ∈ seen := by simpa [hmn] using hm
          rw [newVar_of_extends (prefix_append ..) hms, ← hst.slot_eq m hms]
          exact Function.update_of_ne hmn ..
      · simp only [mem_append, mem_singleton]
        refine ⟨fun hk m hm => ?_, fun hk => Int.ofNat_lt.2 (hk n (.inr rfl))⟩
        rcases hm with hm | rfl
        · exact Nat.lt_trans (hrise.2.2 m hm n (mem_singleton_self n)) (Int.ofNat_lt.1 hk)
        · exact Int.ofNat_lt.1 hk
      · rw [length_append, length_singleton, hst.heapTop_eq]
        rfl

theorem pairwise_of_extends {seen' : List ℕ} (h : seen <+: seen') (hrise : seen'.Pairwise (· < ·)) :
    seen.Pairwise (· < ·) := hrise.sublist h.sublist

theorem unnumber_spec {t : TabledTerm} (ht : t.Sealed)
    (hst : st.Knows base seen) (hrise : (firsts seen t.tree.occs).Pairwise (· < ·)) :
    Rebuilt base seen t.tree (unnumberVarTabledTerm st t) := by
  induction t using TabledTerm.induct generalizing st seen with
  | var n => exact unnumber_var hst n hrise
  | atm w =>
    exact rebuilt_of_ground hst rfl
  | lst cell car cdr ihcar ihcdr =>
    rw [unnumberVarTabledTerm]
    split_ifs with hground
    · exact rebuilt_of_ground hst (ht.occs_eq_nil hground)
    · have hoccs : firsts seen (TabledTerm.lst cell car cdr).tree.occs =
          firsts (firsts seen car.tree.occs) cdr.tree.occs := by
        rw [← firsts_append]
        simp [TabledTerm.tree, Tm.occs, Tm.vars]
      rw [hoccs] at hrise
      have hhead := ihcar ht.2.2.1 hst (pairwise_of_extends prefix_firsts hrise)
      have htail := ihcdr ht.2.2.2 hhead.knows hrise
      refine ⟨?_, hoccs ▸ htail.knows⟩
      rw [hoccs]
      simp only [TabledTerm.tree, Tm.rename, Tm.mapVars]
      rw [hhead.tree_eq_of_extends prefix_firsts, htail.tree_eq]
  | str cell sym arg args iharg ihargs =>
    rw [unnumberVarTabledTerm]
    split_ifs with hground
    · exact rebuilt_of_ground hst (ht.occs_eq_nil hground)
    · have hargs : ∀ {st : Unnumber} {seen : List ℕ}, st.Knows base seen →
          (firsts seen (Tm.vars (TabledTerm.trees args))).Pairwise (· < ·) →
          (unnumberArgs st args).1 =
              Tm.mapVars (newVar base (firsts seen (Tm.vars (TabledTerm.trees args)))) (TabledTerm.trees args) ∧
            (unnumberArgs st args).2.Knows base (firsts seen (Tm.vars (TabledTerm.trees args))) := by
        have hsealed := TabledTerm.sealedArgs_iff.1 ht.2.2.2
        clear ht iharg hrise
        induction args with
        | nil =>
          intro st seen hst _
          exact ⟨rfl, hst⟩
        | cons t ts ih =>
          intro st seen hst hrise
          rw [forall_mem_cons] at ihargs hsealed
          have hoccs : firsts seen (Tm.vars (TabledTerm.trees (t :: ts))) =
              firsts (firsts seen t.tree.occs) (Tm.vars (TabledTerm.trees ts)) := by
            rw [← firsts_append]
            rfl
          rw [hoccs] at hrise ⊢
          have hfirst := ihargs.1 hsealed.1 hst (pairwise_of_extends prefix_firsts hrise)
          obtain ⟨hrest, hknows⟩ := ih ihargs.2 hsealed.2 hfirst.knows hrise
          refine ⟨?_, hknows⟩
          rw [unnumberArgs, TabledTerm.trees, Tm.mapVars, ← hrest, ← hfirst.tree_eq_of_extends prefix_firsts]
      have hoccs : firsts seen (TabledTerm.str cell sym arg args).tree.occs =
          firsts (firsts seen arg.tree.occs) (Tm.vars (TabledTerm.trees args)) := by
        rw [← firsts_append]
        rfl
      rw [hoccs] at hrise
      have hfirst := iharg ht.2.2.1 hst (pairwise_of_extends prefix_firsts hrise)
      obtain ⟨hrest, hknows⟩ := hargs hfirst.knows hrise
      refine ⟨?_, hoccs ▸ hknows⟩
      rw [hoccs, TabledTerm.tree, Tm.rename, Tm.mapVars, ← hrest, ← hfirst.tree_eq_of_extends prefix_firsts]

end Picat
