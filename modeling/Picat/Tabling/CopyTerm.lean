import Picat.Tabling.VariantTest

/-!
# Copying terms

`copy_term` numbers the variables of a term, rebuilds the term with new variables in place of the numbers, and undoes
the numbers with the trail.

* `copyTerm` : the predicate, `copyTerm_run` : what it comes to.
-/

namespace Picat

open Variants VariantTest Function List

/-! ## Terms by their cells -/

/-- A term by its cells: `var` is a reference to a variable's cell, or the word of a number. -/
inductive CellTerm
  | var (x : ℕ)
  | atm (w : ℕ)
  | lst (car cdr : CellTerm)
  | str (sym : Sym) (arg : CellTerm) (args : List CellTerm)

namespace CellTerm

theorem induct {P : CellTerm → Prop} (var : ∀ x, P (var x)) (atm : ∀ w, P (atm w))
    (lst : ∀ car cdr, P car → P cdr → P (lst car cdr))
    (str : ∀ sym arg args, P arg → (∀ t ∈ args, P t) → P (str sym arg args)) (t : CellTerm) : P t :=
  @CellTerm.rec P (fun ts => ∀ t ∈ ts, P t) var atm lst str
    (fun _ h => absurd h not_mem_nil) (fun _ _ ht hts => forall_mem_cons.2 ⟨ht, hts⟩) t

mutual

def tree : CellTerm → Tm Label ℕ
  | var x => .var x
  | atm w => .app (.atm w) []
  | lst car cdr => .app .lst [car.tree, cdr.tree]
  | str sym arg args => .app (.str sym) (arg.tree :: trees args)

def trees : List CellTerm → List (Tm Label ℕ)
  | [] => []
  | t :: ts => t.tree :: trees ts

end

end CellTerm

mutual

def TabledTerm.cells : TabledTerm → CellTerm
  | .var n => .var n
  | .atm w => .atm w
  | .lst _ car cdr => .lst car.cells cdr.cells
  | .str _ sym arg args => .str sym arg.cells (TabledTerm.cellsOf args)

def TabledTerm.cellsOf : List TabledTerm → List CellTerm
  | [] => []
  | t :: ts => t.cells :: TabledTerm.cellsOf ts

end

mutual

/-- The cells of a term on the heap, with those of the ground terms of the table area. -/
def HeapTerm.cells : HeapTerm → CellTerm
  | .var x => .var x
  | .atm w => .atm w
  | .lst car cdr => .lst car.cells cdr.cells
  | .str sym arg args => .str sym arg.cells (HeapTerm.cellsOf args)
  | .tab t => t.term.cells

def HeapTerm.cellsOf : List HeapTerm → List CellTerm
  | [] => []
  | t :: ts => t.cells :: HeapTerm.cellsOf ts

end

@[simp] theorem TabledTerm.tree_cells (t : TabledTerm) : t.cells.tree = t.tree := by
  induction t using TabledTerm.induct with
  | var n => rfl
  | atm w => rfl
  | lst cell car cdr ihcar ihcdr => rw [TabledTerm.cells, CellTerm.tree, ihcar, ihcdr, TabledTerm.tree]
  | str cell sym arg args iharg ihargs =>
    have hargs : CellTerm.trees (TabledTerm.cellsOf args) = TabledTerm.trees args := by
      induction args with
      | nil => rfl
      | cons t ts ih =>
        rw [forall_mem_cons] at ihargs
        rw [TabledTerm.cellsOf, CellTerm.trees, ihargs.1, ih ihargs.2, TabledTerm.trees]
    rw [TabledTerm.cells, CellTerm.tree, iharg, hargs, TabledTerm.tree]

@[simp] theorem HeapTerm.tree_cells (t : HeapTerm) : t.cells.tree = t.tree := by
  induction t using HeapTerm.induct with
  | var x => rfl
  | atm w => rfl
  | lst car cdr ihcar ihcdr => rw [HeapTerm.cells, CellTerm.tree, ihcar, ihcdr, HeapTerm.tree]
  | str sym arg args iharg ihargs =>
    have hargs : CellTerm.trees (HeapTerm.cellsOf args) = HeapTerm.trees args := by
      induction args with
      | nil => rfl
      | cons t ts ih =>
        rw [forall_mem_cons] at ihargs
        rw [HeapTerm.cellsOf, CellTerm.trees, ihargs.1, ih ihargs.2, HeapTerm.trees]
    rw [HeapTerm.cells, CellTerm.tree, iharg, hargs, HeapTerm.tree]
  | tab t => rw [HeapTerm.cells, TabledTerm.tree_cells, HeapTerm.tree]

/-! ## Rebuilding -/

/-- `heap_top += n` -/
def Unnumber.alloc (st : Unnumber) (n : ℕ) : Unnumber := { st with heapTop := st.heapTop + n }

/-- The number `varNo`: its first variable, or the one in its slot. -/
def Unnumber.variable (st : Unnumber) (varNo : ℕ) : Tm Label ℕ × Unnumber :=
  if (varNo : ℤ) > st.max then
    (.var st.heapTop, ⟨varNo, update st.slot varNo (.var st.heapTop), st.heapTop + 1⟩)
  else (st.slot varNo, st)

namespace CellTerm

variable (commaPsc : Sym) (cells : ℕ → VarCell)

mutual

/-- `unnumberVarTermOpt`; a variable without a number is returned as it is. -/
def unnumberVarTermOpt (st : Unnumber) (term : CellTerm) : Tm Label ℕ × Unnumber :=
  match term with
  | .var x =>
    match cells x with
    | .num varNo => st.variable varNo
    | _ => (.var x, st)
  | .atm w => (.app (.atm w) [], st)
  | .lst car cdr => unnumberVarListOpt st car cdr
  | .str sym arg args =>
    match args with
    | [arg2] =>
      if sym = commaPsc then unnumberVarCommaOpt st arg arg2
      else
        let first := unnumberVarTermOpt (st.alloc 3) arg
        let second := unnumberVarTermOpt first.2 arg2
        (.app (.str sym) [first.1, second.1], second.2)
    | args =>
      let first := unnumberVarTermOpt (st.alloc (args.length + 2)) arg
      let rest := unnumberVarArgs first.2 args
      (.app (.str sym) (first.1 :: rest.1), rest.2)
termination_by (sizeOf term, 1)

/-- `unnumberVarListOpt`, from a list cell on. -/
def unnumberVarListOpt (st : Unnumber) (car cdr : CellTerm) : Tm Label ℕ × Unnumber :=
  let head := unnumberVarTermOpt (st.alloc 2) car
  match cdr with
  | .lst car' cdr' =>
    let tail := unnumberVarListOpt head.2 car' cdr'
    (.app .lst [head.1, tail.1], tail.2)
  | t =>
    let tail := unnumberVarTermOpt head.2 t
    (.app .lst [head.1, tail.1], tail.2)
termination_by (1 + sizeOf car + sizeOf cdr, 0)

/-- `unnumberVarCommaOpt`, from a structure with `comma_psc` on. -/
def unnumberVarCommaOpt (st : Unnumber) (arg1 arg2 : CellTerm) : Tm Label ℕ × Unnumber :=
  let first := unnumberVarTermOpt (st.alloc 3) arg1
  match arg2 with
  | .str sym arg1' [arg2'] =>
    if sym = commaPsc then
      let second := unnumberVarCommaOpt first.2 arg1' arg2'
      (.app (.str commaPsc) [first.1, second.1], second.2)
    else
      let second := unnumberVarTermOpt first.2 (.str sym arg1' [arg2'])
      (.app (.str commaPsc) [first.1, second.1], second.2)
  | t =>
    let second := unnumberVarTermOpt first.2 t
    (.app (.str commaPsc) [first.1, second.1], second.2)
termination_by (1 + sizeOf arg1 + sizeOf arg2, 0)

def unnumberVarArgs (st : Unnumber) (args : List CellTerm) : List (Tm Label ℕ) × Unnumber :=
  match args with
  | [] => ([], st)
  | t :: ts =>
    let first := unnumberVarTermOpt st t
    let rest := unnumberVarArgs first.2 ts
    (first.1 :: rest.1, rest.2)
termination_by (sizeOf args, 0)

end

mutual

def unnumber (st : Unnumber) : CellTerm → Tm Label ℕ × Unnumber
  | .var x =>
    match cells x with
    | .num varNo => st.variable varNo
    | _ => (.var x, st)
  | .atm w => (.app (.atm w) [], st)
  | .lst car cdr =>
    let head := unnumber (st.alloc 2) car
    let tail := unnumber head.2 cdr
    (.app .lst [head.1, tail.1], tail.2)
  | .str sym arg args =>
    let first := unnumber (st.alloc (args.length + 2)) arg
    let rest := unnumberAll first.2 args
    (.app (.str sym) (first.1 :: rest.1), rest.2)

def unnumberAll (st : Unnumber) : List CellTerm → List (Tm Label ℕ) × Unnumber
  | [] => ([], st)
  | t :: ts =>
    let first := unnumber st t
    let rest := unnumberAll first.2 ts
    (first.1 :: rest.1, rest.2)

end

theorem unnumberVarTermOpt_eq (t : CellTerm) (st : Unnumber) :
    unnumberVarTermOpt commaPsc cells st t = unnumber cells st t := by
  induction t using CellTerm.induct generalizing st with
  | var x => rw [unnumberVarTermOpt, unnumber]
  | atm w => rw [unnumberVarTermOpt, unnumber]
  | lst car cdr ihcar ihcdr =>
    rw [unnumberVarTermOpt, unnumberVarListOpt.eq_def, unnumber, ihcar]
    split
    · simp only [← ihcdr, unnumberVarTermOpt]
    · simp only [ihcdr]
  | str sym arg args iharg ihargs =>
    have hall : ∀ st, unnumberVarArgs commaPsc cells st args = unnumberAll cells st args := by
      induction args with
      | nil =>
        intro st
        rw [unnumberVarArgs, unnumberAll]
      | cons t ts ih =>
        rw [forall_mem_cons] at ihargs
        intro st
        rw [unnumberVarArgs, unnumberAll, ihargs.1, ih ihargs.2]
    rw [unnumber]
    unfold unnumberVarTermOpt
    split
    · next arg2 =>
        obtain ⟨ih2, -⟩ := forall_mem_cons.1 ihargs
        split_ifs with hsym
        · subst hsym
          rw [unnumberVarCommaOpt.eq_def, iharg]
          split
          · next sym arg1' arg2' =>
              split_ifs with hcomma
              · subst hcomma
                have hrest : unnumberVarCommaOpt sym cells (unnumber cells (st.alloc 3) arg).2 arg1' arg2' =
                    unnumberVarTermOpt sym cells (unnumber cells (st.alloc 3) arg).2 (.str sym arg1' [arg2']) := by
                  rw [unnumberVarTermOpt]
                  simp only [if_true]
                simp only [hrest, ih2]
                rfl
              · simp only [ih2]
                rfl
          · simp only [ih2]
            rfl
        · simp only [iharg, ih2]
          rfl
    · simp only [iharg, hall]

end CellTerm

/-! ## What rebuilding makes of a term -/

section
variable {cells : ℕ → VarCell} {ν : ℕ → ℕ} {base : ℕ} {seen seen' : List ℕ} {st : Unnumber}

/-- The numbers seen have variables of their own, allocated from `base` on, and all greater numbers are new. -/
structure Slots (st : Unnumber) (base : ℕ) (seen : List ℕ) : Prop where
  slot : ∀ n ∈ seen, ∃ a, st.slot n = .var a ∧ base ≤ a ∧ a < st.heapTop
  inj : ∀ n ∈ seen, ∀ m ∈ seen, st.slot n = st.slot m → n = m
  max_lt : ∀ n : ℕ, (n : ℤ) > st.max ↔ ∀ m ∈ seen, m < n
  base_le : base ≤ st.heapTop

theorem slots_prepare (slot : ℕ → Tm Label ℕ) (heapTop : ℕ) : Slots (prepareUnnumberTerm slot heapTop) heapTop [] :=
  ⟨fun _ h => absurd h not_mem_nil, fun _ h => absurd h not_mem_nil,
    fun n => by simp [prepareUnnumberTerm]; omega, Nat.le_refl heapTop⟩

theorem Slots.alloc (S : Slots st base seen) (n : ℕ) : Slots (st.alloc n) base seen := by
  refine ⟨fun m hm => ?_, S.inj, S.max_lt, S.base_le.trans (Nat.le_add_right _ _)⟩
  obtain ⟨a, ha, hbase, htop⟩ := S.slot m hm
  exact ⟨a, ha, hbase, htop.trans_le (Nat.le_add_right _ _)⟩

variable (ν base seen) in
/-- From `st` on, where `seen` have been seen, `t` has been rebuilt to `u`, up to the state `st'`. -/
structure RenewedAll (st : Unnumber) (t : List (Tm Label ℕ)) (u : List (Tm Label ℕ)) (st' : Unnumber) : Prop where
  slots : Slots st' base (firsts seen ((Tm.vars t).map ν))
  kept : ∀ n ∈ seen, st'.slot n = st.slot n
  terms : u = Tm.substArgs (fun x => st'.slot (ν x)) t

theorem RenewedAll.nil (S : Slots st base seen) : RenewedAll ν base seen st [] [] st := ⟨S, fun _ _ => rfl, rfl⟩

theorem RenewedAll.alloc {n : ℕ} {t u : List (Tm Label ℕ)} {st' : Unnumber} (C : RenewedAll ν base seen (st.alloc n) t u st') :
    RenewedAll ν base seen st t u st' := ⟨C.slots, C.kept, C.terms⟩

theorem firsts_vars_cons (t : Tm Label ℕ) (ts : List (Tm Label ℕ)) : firsts seen ((Tm.vars (t :: ts)).map ν) =
      firsts (firsts seen ((Tm.vars [t]).map ν)) ((Tm.vars ts).map ν) := by
  rw [← firsts_append, ← List.map_append]
  simp only [Tm.vars, append_nil]

theorem RenewedAll.cons {t u : Tm Label ℕ} {ts us : List (Tm Label ℕ)} {st1 st2 : Unnumber}
    (C : RenewedAll ν base seen st [t] [u] st1)
    (C' : RenewedAll ν base (firsts seen ((Tm.vars [t]).map ν)) st1 ts us st2) :
    RenewedAll ν base seen st (t :: ts) (u :: us) st2 := by
  refine ⟨?_, fun n hn => (C'.kept n (mem_firsts.2 (.inl hn))).trans (C.kept n hn), ?_⟩
  · rw [firsts_vars_cons]
    exact C'.slots
  · rw [Tm.substArgs, ← C'.terms]
    congr 1
    have hterms := C.terms
    rw [Tm.substArgs, Tm.substArgs, List.cons.injEq] at hterms
    rw [hterms.1]
    apply Tm.subst_congr
    intro x hx
    have hmem : ν x ∈ (Tm.vars [t]).map ν := mem_map_of_mem (by rwa [Tm.vars, Tm.vars, append_nil])
    exact (C'.kept (ν x) (mem_firsts.2 (.inr hmem))).symm

theorem vars_app (f : Label) (ts : List (Tm Label ℕ)) : Tm.vars [Tm.app f ts] = Tm.vars ts := by
  rw [Tm.vars, Tm.vars, append_nil, Tm.occs]

theorem RenewedAll.app {f : Label} {ts us : List (Tm Label ℕ)} {st' : Unnumber} (C : RenewedAll ν base seen st ts us st') :
    RenewedAll ν base seen st [.app f ts] [.app f us] st' := by
  refine ⟨(vars_app f ts).symm ▸ C.slots, C.kept, ?_⟩
  rw [Tm.substArgs, Tm.subst, ← C.terms, Tm.substArgs]

theorem renewed_variable (S : Slots st base seen) {x : ℕ} (hrise : (firsts seen [ν x]).Pairwise (· < ·)) :
    RenewedAll ν base seen st [.var x] [(st.variable (ν x)).1] (st.variable (ν x)).2 := by
  have hvars : (Tm.vars [(.var x : Tm Label ℕ)]).map ν = [ν x] := rfl
  unfold Unnumber.variable
  by_cases hn : ν x ∈ seen
  · have hold : ¬ ((ν x : ℕ) : ℤ) > st.max := fun h => lt_irrefl _ ((S.max_lt (ν x)).1 h _ hn)
    rw [if_neg hold]
    refine ⟨?_, fun _ _ => rfl, rfl⟩
    rw [hvars, firsts_eq_self fun y hy => by rwa [mem_singleton.1 hy]]
    exact S
  · have hfirsts : firsts seen [ν x] = seen ++ [ν x] := by simp [firsts, hn]
    rw [hfirsts, pairwise_append] at hrise
    have hlt : ∀ m ∈ seen, m < ν x := fun m hm => hrise.2.2 m hm (ν x) (mem_singleton_self _)
    have hne : ∀ m ∈ seen, m ≠ ν x := fun m hm => (hlt m hm).ne
    rw [if_pos ((S.max_lt (ν x)).2 hlt)]
    refine ⟨?_, fun m hm => update_of_ne (hne m hm) .., ?_⟩
    · rw [hvars, hfirsts]
      -- the variable that is allocated is above all the others
      have hnew : ∀ m ∈ seen, st.slot m ≠ .var st.heapTop := by
        intro m hm heq
        obtain ⟨a, ha, -, htop⟩ := S.slot m hm
        rw [ha, Tm.var.injEq] at heq
        omega
      refine ⟨fun m hm => ?_, fun m hm k hk heq => ?_, fun k => ?_, S.base_le.trans (Nat.le_succ _)⟩
      · rcases mem_append.1 hm with hm | hm
        · obtain ⟨a, ha, hbase, htop⟩ := S.slot m hm
          exact ⟨a, (update_of_ne (hne m hm) ..).trans ha, hbase, Nat.lt_succ_of_lt htop⟩
        · rw [mem_singleton.1 hm]
          exact ⟨st.heapTop, update_self .., S.base_le, Nat.lt_succ_self _⟩
      · change update st.slot (ν x) (.var st.heapTop) m = update st.slot (ν x) (.var st.heapTop) k at heq
        rw [mem_append, mem_singleton] at hm hk
        rcases hm with hm | rfl
        · rcases hk with hk | rfl
          · rw [update_of_ne (hne m hm), update_of_ne (hne k hk)] at heq
            exact S.inj m hm k hk heq
          · rw [update_of_ne (hne m hm), update_self] at heq
            exact absurd heq (hnew m hm)
        · rcases hk with hk | rfl
          · rw [update_of_ne (hne k hk), update_self] at heq
            exact absurd heq.symm (hnew k hk)
          · rfl
      · simp only [mem_append, mem_singleton]
        refine ⟨fun hk m hm => ?_, fun hk => Int.ofNat_lt.2 (hk (ν x) (.inr rfl))⟩
        rcases hm with hm | rfl
        · exact (hlt m hm).trans (Int.ofNat_lt.1 hk)
        · exact Int.ofNat_lt.1 hk
    · change [Tm.var st.heapTop] = [update st.slot (ν x) (.var st.heapTop) (ν x)]
      rw [update_self]

variable (cells ν base) in
/-- Where the numbers rise in the order in which they occur first, every number gets a variable of its own. -/
def Renews (t : CellTerm) : Prop :=
  ∀ {seen st}, (∀ x ∈ Tm.vars [t.tree], cells x = .num (ν x)) → Slots st base seen →
    (firsts seen ((Tm.vars [t.tree]).map ν)).Pairwise (· < ·) →
    RenewedAll ν base seen st [t.tree] [(CellTerm.unnumber cells st t).1] (CellTerm.unnumber cells st t).2

theorem vars_cons (t : Tm Label ℕ) (ts : List (Tm Label ℕ)) : Tm.vars (t :: ts) = Tm.vars [t] ++ Tm.vars ts := by
  rw [Tm.vars, Tm.vars, Tm.vars, append_nil]

theorem unnumberAll_run {ts : List CellTerm} (h : ∀ t ∈ ts, Renews cells ν base t) :
    ∀ {seen st}, (∀ x ∈ Tm.vars (CellTerm.trees ts), cells x = .num (ν x)) → Slots st base seen →
      (firsts seen ((Tm.vars (CellTerm.trees ts)).map ν)).Pairwise (· < ·) →
      RenewedAll ν base seen st (CellTerm.trees ts) (CellTerm.unnumberAll cells st ts).1
        (CellTerm.unnumberAll cells st ts).2 := by
  induction ts with
  | nil => exact fun _ S _ => .nil S
  | cons t ts ih =>
    intro seen st hnum S hrise
    rw [forall_mem_cons] at h
    rw [CellTerm.trees, firsts_vars_cons] at hrise
    rw [CellTerm.trees, vars_cons, forall_mem_append] at hnum
    have hfirst := h.1 hnum.1 S (pairwise_of_extends prefix_firsts hrise)
    exact hfirst.cons (ih h.2 hnum.2 hfirst.slots hrise)

theorem unnumber_run (t : CellTerm) : Renews cells ν base t := by
  induction t using CellTerm.induct with
  | var x =>
    intro seen st hnum S hrise
    rw [CellTerm.unnumber, hnum x (mem_singleton_self x)]
    exact renewed_variable S hrise
  | atm w =>
    intro seen st _ S _
    rw [CellTerm.unnumber]
    exact (RenewedAll.nil S).app
  | lst car cdr ihcar ihcdr =>
    intro seen st hnum S hrise
    rw [CellTerm.tree, vars_app] at hnum hrise
    rw [firsts_vars_cons] at hrise
    rw [vars_cons, forall_mem_append] at hnum
    have hhead := ihcar hnum.1 (S.alloc 2) (pairwise_of_extends prefix_firsts hrise)
    exact (hhead.cons (ihcdr hnum.2 hhead.slots hrise)).alloc.app
  | str sym arg args iharg ihargs =>
    intro seen st hnum S hrise
    rw [CellTerm.tree, vars_app] at hnum hrise
    rw [firsts_vars_cons] at hrise
    rw [vars_cons, forall_mem_append] at hnum
    have hfirst := iharg hnum.1 (S.alloc (args.length + 2)) (pairwise_of_extends prefix_firsts hrise)
    exact (hfirst.cons (unnumberAll_run ihargs hnum.2 hfirst.slots hrise)).alloc.app

def address : Tm Label ℕ → ℕ
  | .var a => a
  | .app _ _ => 0

/-- `u` is `t` with new variables, allocated from `base` on, below `top`. -/
def Renames (base top : ℕ) (t u : Tm Label ℕ) : Prop := Variant [t] [u] ∧ ∀ y ∈ u.occs, base ≤ y ∧ y < top

/-- A term in which the variables have the numbers of their first occurrences is renamed. -/
theorem RenewedAll.renames {t u : Tm Label ℕ} {st' : Unnumber} (C : RenewedAll ν base [] st [t] [u] st')
    (hinj : ∀ x ∈ t.occs, ∀ y ∈ t.occs, ν x = ν y → x = y) : Renames base st'.heapTop t u := by
  have hmem : ∀ x ∈ t.occs, ν x ∈ firsts [] ((Tm.vars [t]).map ν) := fun x hx =>
    mem_firsts.2 (.inr (mem_map_of_mem (by rwa [Tm.vars, Tm.vars, append_nil])))
  have hslot : ∀ x ∈ t.occs, st'.slot (ν x) = .var (address (st'.slot (ν x))) ∧
      base ≤ address (st'.slot (ν x)) ∧ address (st'.slot (ν x)) < st'.heapTop := by
    intro x hx
    obtain ⟨a, ha, hbase, htop⟩ := C.slots.slot (ν x) (hmem x hx)
    rw [ha]
    exact ⟨rfl, hbase, htop⟩
  have hu : u = t.rename fun x => address (st'.slot (ν x)) := by
    have hterms := C.terms
    rw [Tm.substArgs, Tm.substArgs, List.cons.injEq] at hterms
    rw [hterms.1, Tm.subst_congr t fun x hx => (hslot x hx).1, Tm.subst_var]
  refine ⟨⟨fun x => address (st'.slot (ν x)), fun x hx y hy heq => ?_, ?_⟩, fun y hy => ?_⟩
  · simp only [Tm.vars, append_nil, Set.mem_ofPred_eq] at hx hy
    apply hinj x hx y hy
    apply C.slots.inj _ (hmem x hx) _ (hmem y hy)
    rw [(hslot x hx).1, (hslot y hy).1]
    exact congrArg Tm.var heq
  · rw [hu, Tm.mapVars, Tm.mapVars]
  · rw [hu, Tm.occs_rename, mem_map] at hy
    obtain ⟨x, hx, rfl⟩ := hy
    exact (hslot x hx).2

end

/-! ## `copy_term` -/

theorem firsts_idxOf (xs : List ℕ) : firsts [] (xs.map (firsts [] xs).idxOf) = List.range (firsts [] xs).length := by
  have hinj : Set.InjOn (firsts [] xs).idxOf {x | x ∈ ([] : List ℕ) ∨ x ∈ xs} := by
    intro x hx y hy heq
    exact (idxOf_inj (mem_firsts.2 hx)).1 heq
  have hmap := firsts_map hinj
  rw [map_nil] at hmap
  rw [hmap]
  apply ext_getElem
  · rw [length_map, length_range]
  · intro i h1 h2
    rw [getElem_map, getElem_range]
    exact List.Nodup.idxOf_getElem (nodup_firsts nodup_nil) i _

/-- `copy_term`, with what is left in the cells. The code for a suspension variable sets `number_var_exception` and trails
the word of the variable. -/
def copyTerm (commaPsc : Sym) (slot : ℕ → Tm Label ℕ) (heapTop : ℕ) (cells : ℕ → VarCell) (term : HeapTerm) :
    Option (Tm Label ℕ × ℕ) × (ℕ → VarCell) :=
  let st := VariantTest.numberVarTermOpt ⟨cells, 0, []⟩ term
  let numberVarException := st.trail.any fun e => e.2 = .susp
  if numberVarException then (none, undoTrailing st.trail st.cells)
  else
    let temp := CellTerm.unnumberVarTermOpt commaPsc st.cells (prepareUnnumberTerm slot heapTop) term.cells
    (some (temp.1, temp.2.heapTop), undoTrailing st.trail st.cells)

section
variable {cells : ℕ → VarCell}

theorem numbered_term (h : Unnumbered cells) (t : HeapTerm) :
    Numbered ⟨cells, 0, []⟩ (firsts [] t.tree.occs) (VariantTest.numberVarTermOpt ⟨cells, 0, []⟩ t) := by
  have hnum := foldl_meet_numbered ⟨cells, 0, []⟩ t.tree.occs [] _ (Numbered.refl _)
  rwa [filter_eq_self.2 fun x _ => decide_eq_true (h x), ← VariantTest.numberVarTermOpt_eq] at hnum

theorem mem_trail (xs : List ℕ) (st : NumberState) (e : ℕ × VarCell) : e ∈ (xs.foldl NumberState.meet st).trail ↔
      e ∈ st.trail ∨ e.1 ∈ xs ∧ e.2 = st.cells e.1 ∧ (st.cells e.1).number? = none := by
  induction xs generalizing st with
  | nil => exact (or_iff_left fun hmem => not_mem_nil hmem.1).symm
  | cons x xs ih =>
    rw [foldl_cons, ih]
    by_cases hfresh : (st.cells x).number? = none
    · rw [NumberState.meet_of_fresh hfresh]
      by_cases hx : e.1 = x
      · -- the first occurrence of the variable is the one that counts
        have hcell : (st.assign x).cells e.1 = .num st.globalVarNum := by
          rw [hx]
          exact update_self ..
        have hentry : e = (x, st.cells x) ↔ e.2 = st.cells e.1 := by
          rw [Prod.ext_iff, and_iff_right hx, hx]
        rw [hcell, NumberState.assign, mem_cons, hentry, hx, mem_cons]
        have hnum : (VarCell.num st.globalVarNum).number? ≠ none := Option.some_ne_none _
        rw [and_iff_left hfresh]
        simp only [hnum, and_false, or_false, true_or, true_and]
        exact or_comm
      · have hcell : (st.assign x).cells e.1 = st.cells e.1 := update_of_ne hx ..
        have hentry : e ≠ (x, st.cells x) := fun heq => hx (congrArg Prod.fst heq)
        rw [hcell, NumberState.assign, mem_cons, mem_cons, or_iff_right hentry, or_iff_right hx]
    · have hmeet : st.meet x = st := by
        obtain ⟨n, hn⟩ := Option.ne_none_iff_exists'.1 hfresh
        cases hc : st.cells x with
        | num n => exact NumberState.meet_of_numbered hc
        | free =>
          rw [hc] at hn
          cases hn
        | susp =>
          rw [hc] at hn
          cases hn
      rw [hmeet]
      refine or_congr_right ⟨fun hmem => ⟨mem_cons_of_mem x hmem.1, hmem.2⟩, fun hmem => ⟨?_, hmem.2⟩⟩
      rcases mem_cons.1 hmem.1 with heq | hin
      · rw [← heq] at hfresh
        exact absurd hmem.2.2 hfresh
      · exact hin

theorem numberVarException_iff (h : Unnumbered cells) (t : HeapTerm) :
    ((VariantTest.numberVarTermOpt ⟨cells, 0, []⟩ t).trail.any fun e => e.2 = .susp) = true ↔
      ∃ x ∈ t.tree.occs, cells x = .susp := by
  rw [any_eq_true, VariantTest.numberVarTermOpt_eq]
  constructor
  · rintro ⟨e, he, hsusp⟩
    rcases (mem_trail _ _ e).1 he with hnil | ⟨hx, hcell, -⟩
    · cases hnil
    · exact ⟨e.1, hx, hcell.symm.trans (of_decide_eq_true hsusp)⟩
  · rintro ⟨x, hx, hsusp⟩
    exact ⟨(x, .susp), (mem_trail _ _ _).2 (.inr ⟨hx, hsusp.symm, h x⟩), decide_eq_true rfl⟩

/-- A term with a suspension variable is not copied, and every other one is renamed; the term is left as it was. -/
theorem copyTerm_run (commaPsc : Sym) (slot : ℕ → Tm Label ℕ) (heapTop : ℕ) (h : Unnumbered cells) (t : HeapTerm) :
    (copyTerm commaPsc slot heapTop cells t).2 = cells ∧
    ((∃ x ∈ t.tree.occs, cells x = .susp) → (copyTerm commaPsc slot heapTop cells t).1 = none) ∧
    ((∀ x ∈ t.tree.occs, cells x ≠ .susp) → ∃ u top,
      (copyTerm commaPsc slot heapTop cells t).1 = some (u, top) ∧ Renames heapTop top t.tree u) := by
  have hnum := numbered_term h t
  unfold copyTerm
  by_cases hsusp : ∃ x ∈ t.tree.occs, cells x = .susp
  · simp only [(numberVarException_iff h t).2 hsusp, if_true]
    refine ⟨hnum.undo, fun _ => trivial, fun hnot => ?_⟩
    obtain ⟨x, hx, hcell⟩ := hsusp
    exact absurd hcell (hnot x hx)
  · simp only [mt (numberVarException_iff h t).1 hsusp, if_false, Bool.false_eq_true]
    refine ⟨hnum.undo, fun hnot => absurd hnot hsusp, fun _ => ⟨_, _, rfl, ?_⟩⟩
    rw [CellTerm.unnumberVarTermOpt_eq]
    have hvars : Tm.vars [t.cells.tree] = t.tree.occs := by
      rw [Tm.vars, Tm.vars, append_nil, HeapTerm.tree_cells]
    have hcells : ∀ x ∈ Tm.vars [t.cells.tree], (VariantTest.numberVarTermOpt ⟨cells, 0, []⟩ t).cells x =
        .num ((firsts [] t.tree.occs).idxOf x) := by
      intro x hx
      rw [hvars] at hx
      have hx' := hnum.number x (mem_firsts.2 (.inr hx))
      rwa [Nat.zero_add] at hx'
    have hrise : (firsts [] ((Tm.vars [t.cells.tree]).map (firsts [] t.tree.occs).idxOf)).Pairwise (· < ·) := by
      rw [hvars, firsts_idxOf]
      exact pairwise_lt_range
    have hrun := unnumber_run t.cells hcells (slots_prepare slot heapTop) hrise
    rw [HeapTerm.tree_cells] at hrun
    exact hrun.renames fun x hx y _ heq => (idxOf_inj (mem_firsts.2 (.inr hx))).1 heq

end

end Picat

/-! # The findall area -/

namespace Picat

open Variants VariantTest List

/-! ## To the findall area -/

mutual

def numberVarCopyToFindallArea (st : NumberState) (term : CellTerm) : CellTerm × NumberState :=
  match term with
  | .var x =>
    match st.cells x with
    | .num n => (.var n, st)
    | _ => (.var st.globalVarNum, st.assign x)
  | .atm w => (.atm w, st)
  | .lst car cdr => numberVarCopyListToFindallArea st car cdr
  | .str sym arg args =>
    let first := numberVarCopyToFindallArea st arg
    let rest := numberVarCopyArgs first.2 args
    (.str sym first.1 rest.1, rest.2)
termination_by (sizeOf term, 1)

/-- `numberVarCopyListToFindallArea`, from a list cell on. -/
def numberVarCopyListToFindallArea (st : NumberState) (car cdr : CellTerm) : CellTerm × NumberState :=
  let head := numberVarCopyToFindallArea st car
  match cdr with
  | .lst car' cdr' =>
    let tail := numberVarCopyListToFindallArea head.2 car' cdr'
    (.lst head.1 tail.1, tail.2)
  | t =>
    let tail := numberVarCopyToFindallArea head.2 t
    (.lst head.1 tail.1, tail.2)
termination_by (1 + sizeOf car + sizeOf cdr, 0)

def numberVarCopyArgs (st : NumberState) (args : List CellTerm) : List CellTerm × NumberState :=
  match args with
  | [] => ([], st)
  | t :: ts =>
    let first := numberVarCopyToFindallArea st t
    let rest := numberVarCopyArgs first.2 ts
    (first.1 :: rest.1, rest.2)
termination_by (sizeOf args, 0)

end

theorem numberVarCopyList_eq (st : NumberState) (car cdr : CellTerm) : numberVarCopyToFindallArea st (.lst car cdr) =
      let head := numberVarCopyToFindallArea st car
      let tail := numberVarCopyToFindallArea head.2 cdr
      (.lst head.1 tail.1, tail.2) := by
  rw [numberVarCopyToFindallArea, numberVarCopyListToFindallArea.eq_def]
  split
  · simp only [numberVarCopyToFindallArea]
  · rfl

/-- `copy_term_heap_to_faa`, with what is left in the cells. -/
def copyTermHeapToFaa (cells : ℕ → VarCell) (value : HeapTerm) : CellTerm × (ℕ → VarCell) :=
  let temp := numberVarCopyToFindallArea ⟨cells, 0, []⟩ value.cells
  (temp.1, undoTrailing temp.2.trail temp.2.cells)

/-- `b_FINDALL_INSERT_cc`, on the list that the symbol record holds. -/
def findallInsert (cells : ℕ → VarCell) (ep : List CellTerm) (value : HeapTerm) : List CellTerm × (ℕ → VarCell) :=
  match value with
  | .atm w => (.atm w :: ep, cells)
  | value =>
    let temp := copyTermHeapToFaa cells value
    (temp.1 :: ep, temp.2)

/-- `copy_answers_faa_to_heap`, with the list so far; the slots hold whatever the last term has left there. -/
def copyAnswersFaaToHeap (commaPsc : Sym) (slot : ℕ → Tm Label ℕ) (heapTop : ℕ) (listCp : List (Tm Label ℕ)) :
    List CellTerm → List (Tm Label ℕ) × ℕ
  | [] => (listCp, heapTop)
  | t :: list =>
    let car := CellTerm.unnumberVarTermOpt commaPsc VarCell.num (prepareUnnumberTerm slot heapTop) t
    copyAnswersFaaToHeap commaPsc car.2.slot (car.2.heapTop + 2) (car.1 :: listCp) list

/-! ## The copies -/

section
variable {cells : ℕ → VarCell} {st st' : NumberState}

def Later (st st' : NumberState) : Prop := ∀ x n, st.cells x = .num n → st'.cells x = .num n

theorem later_meet (st : NumberState) (x : ℕ) : Later st (st.meet x) := by
  intro y n hy
  by_cases hyx : y = x
  · subst hyx
    rwa [NumberState.meet_of_numbered hy]
  · unfold NumberState.meet
    split
    · exact hy
    · exact (Function.update_of_ne hyx ..).trans hy

theorem later_foldl (xs : List ℕ) (st : NumberState) : Later st (xs.foldl NumberState.meet st) := by
  induction xs generalizing st with
  | nil => exact fun _ _ h => h
  | cons x xs ih => exact fun y n hy => ih _ y n (later_meet st x y n hy)

def numberOf (st : NumberState) (x : ℕ) : ℕ := ((st.cells x).number?).getD 0

def Numbers (t : Tm Label ℕ) (st : NumberState) (r : Tm Label ℕ × NumberState) : Prop :=
  r.2 = t.occs.foldl NumberState.meet st ∧ ∀ st', Later r.2 st' → r.1 = t.rename (numberOf st')

theorem numbers_var (st : NumberState) (x : ℕ) :
    Numbers (.var x) st ((numberVarCopyToFindallArea st (.var x)).1.tree, (numberVarCopyToFindallArea st (.var x)).2) := by
  have hnumber : ∀ (st' : NumberState) n, st'.cells x = .num n → numberOf st' x = n := by
    intro st' n hn
    rw [numberOf, hn]
    rfl
  have hocc : (Tm.occs (.var x : Tm Label ℕ)).foldl NumberState.meet st = st.meet x := rfl
  rw [numberVarCopyToFindallArea]
  unfold Numbers
  rw [hocc]
  cases hc : st.cells x with
  | num n =>
    rw [NumberState.meet_of_numbered hc]
    refine ⟨rfl, fun st' hlater => ?_⟩
    rw [CellTerm.tree, Tm.rename, hnumber st' n (hlater x n hc)]
  | _ =>
    rw [NumberState.meet_of_fresh (by rw [hc]; rfl)]
    refine ⟨rfl, fun st' hlater => ?_⟩
    rw [CellTerm.tree, Tm.rename, hnumber st' st.globalVarNum (hlater x _ (Function.update_self ..))]

theorem numbers_args {ts : List CellTerm}
    (h : ∀ t ∈ ts, ∀ st, Numbers t.tree st
      ((numberVarCopyToFindallArea st t).1.tree, (numberVarCopyToFindallArea st t).2)) (st : NumberState) :
    (numberVarCopyArgs st ts).2 = (Tm.vars (CellTerm.trees ts)).foldl NumberState.meet st ∧
    ∀ st', Later (numberVarCopyArgs st ts).2 st' →
      CellTerm.trees (numberVarCopyArgs st ts).1 = Tm.mapVars (numberOf st') (CellTerm.trees ts) := by
  induction ts generalizing st with
  | nil =>
    rw [numberVarCopyArgs]
    exact ⟨rfl, fun _ _ => rfl⟩
  | cons t ts ih =>
    rw [forall_mem_cons] at h
    obtain ⟨hstate, hterm⟩ := h.1 st
    obtain ⟨hstate', hterms⟩ := ih h.2 (numberVarCopyToFindallArea st t).2
    simp only at hstate
    rw [numberVarCopyArgs]
    refine ⟨?_, fun st' hlater => ?_⟩
    · rw [CellTerm.trees, Tm.vars, foldl_append, ← hstate]
      exact hstate'
    · have hlater' : Later (numberVarCopyToFindallArea st t).2 st' := by
        intro x n hx
        apply hlater x n
        rw [hstate']
        exact later_foldl _ _ x n hx
      rw [CellTerm.trees, CellTerm.trees, Tm.mapVars, ← hterm st' hlater', hterms st' hlater]

theorem numbers_term (t : CellTerm) (st : NumberState) :
    Numbers t.tree st ((numberVarCopyToFindallArea st t).1.tree, (numberVarCopyToFindallArea st t).2) := by
  induction t using CellTerm.induct generalizing st with
  | var x => exact numbers_var st x
  | atm w =>
    rw [numberVarCopyToFindallArea]
    exact ⟨rfl, fun _ _ => rfl⟩
  | lst car cdr ihcar ihcdr =>
    obtain ⟨hstate, hterm⟩ := ihcar st
    obtain ⟨hstate', hterm'⟩ := ihcdr (numberVarCopyToFindallArea st car).2
    simp only at hstate hstate'
    rw [numberVarCopyList_eq]
    refine ⟨?_, fun st' hlater => ?_⟩
    · show _ = (Tm.occs (.app .lst [car.tree, cdr.tree])).foldl NumberState.meet st
      rw [Tm.occs, Tm.vars, Tm.vars, Tm.vars, append_nil, foldl_append, ← hstate]
      exact hstate'
    · have hlater' : Later (numberVarCopyToFindallArea st car).2 st' := by
        intro x n hx
        apply hlater x n
        simp only
        rw [hstate']
        exact later_foldl _ _ x n hx
      simp only [CellTerm.tree, Tm.rename, Tm.mapVars]
      rw [← hterm st' hlater', ← hterm' st' hlater]
  | str sym arg args iharg ihargs =>
    obtain ⟨hstate, hterm⟩ := iharg st
    obtain ⟨hstate', hterms⟩ := numbers_args ihargs (numberVarCopyToFindallArea st arg).2
    simp only at hstate
    rw [numberVarCopyToFindallArea]
    refine ⟨?_, fun st' hlater => ?_⟩
    · show _ = (Tm.occs (.app (.str sym) (arg.tree :: CellTerm.trees args))).foldl NumberState.meet st
      rw [Tm.occs, Tm.vars, foldl_append, ← hstate]
      exact hstate'
    · have hlater' : Later (numberVarCopyToFindallArea st arg).2 st' := by
        intro x n hx
        apply hlater x n
        simp only
        rw [hstate']
        exact later_foldl _ _ x n hx
      simp only [CellTerm.tree, Tm.rename, Tm.mapVars]
      rw [← hterm st' hlater', hterms st' hlater]

theorem copyTermHeapToFaa_run (h : Unnumbered cells) (t : HeapTerm) :
    (copyTermHeapToFaa cells t).1.tree = t.tree.rename (firsts [] t.tree.occs).idxOf ∧
      (copyTermHeapToFaa cells t).2 = cells := by
  obtain ⟨hstate, hterm⟩ := numbers_term t.cells ⟨cells, 0, []⟩
  simp only [HeapTerm.tree_cells] at hstate hterm
  have hnum := numbered_term h t
  rw [VariantTest.numberVarTermOpt_eq, ← hstate] at hnum
  refine ⟨?_, hnum.undo⟩
  rw [copyTermHeapToFaa, hterm _ fun _ _ h => h]
  apply Tm.rename_congr
  intro x hx
  have hx' := hnum.number x (mem_firsts.2 (.inr hx))
  rw [Nat.zero_add] at hx'
  rw [numberOf, hx']
  rfl

theorem findallInsert_eq (cells : ℕ → VarCell) (ep : List CellTerm) (value : HeapTerm) :
    findallInsert cells ep value = ((copyTermHeapToFaa cells value).1 :: ep, (copyTermHeapToFaa cells value).2) := by
  unfold findallInsert
  split
  · rw [copyTermHeapToFaa, HeapTerm.cells, numberVarCopyToFindallArea]
    rfl
  · rfl

end

/-! ## Back to the heap -/

theorem Renames.mono {base base' top top' : ℕ} {t u : Tm Label ℕ} (h : Renames base top t u) (hbase : base' ≤ base)
    (htop : top ≤ top') : Renames base' top' t u :=
  ⟨h.1, fun y hy => ⟨hbase.trans (h.2 y hy).1, (h.2 y hy).2.trans_le htop⟩⟩

def VarsApart (u u' : Tm Label ℕ) : Prop := ∀ y ∈ u.occs, y ∉ u'.occs

/-- The variables of a term from the findall area are numbered in the order in which they occur first. -/
def Ordered (t : CellTerm) : Prop := (firsts [] t.tree.occs).Pairwise (· < ·)

theorem answer_run (commaPsc : Sym) (slot : ℕ → Tm Label ℕ) (heapTop : ℕ) {t : CellTerm} (ht : Ordered t) :
    Renames heapTop (CellTerm.unnumberVarTermOpt commaPsc VarCell.num (prepareUnnumberTerm slot heapTop) t).2.heapTop t.tree
        (CellTerm.unnumberVarTermOpt commaPsc VarCell.num (prepareUnnumberTerm slot heapTop) t).1 ∧
      heapTop ≤ (CellTerm.unnumberVarTermOpt commaPsc VarCell.num (prepareUnnumberTerm slot heapTop) t).2.heapTop := by
  rw [CellTerm.unnumberVarTermOpt_eq]
  have hrise : (firsts [] ((Tm.vars [t.tree]).map id)).Pairwise (· < ·) := by
    rw [map_id, Tm.vars, Tm.vars, append_nil]
    exact ht
  have hrun := unnumber_run t (fun _ _ => rfl) (slots_prepare slot heapTop) hrise
  exact ⟨hrun.renames fun _ _ _ _ heq => heq, hrun.slots.base_le⟩

theorem copyAnswersFaaToHeap_run (commaPsc : Sym) {list : List CellTerm} (hlist : ∀ t ∈ list, Ordered t) :
    ∀ (slot : ℕ → Tm Label ℕ) (heapTop : ℕ) (listCp : List (Tm Label ℕ)), ∃ rs top,
      copyAnswersFaaToHeap commaPsc slot heapTop listCp list = (rs.reverse ++ listCp, top) ∧ heapTop ≤ top ∧
      List.Forall₂ (fun t r => Renames heapTop top t.tree r) list rs ∧ (∀ r ∈ rs, ∀ y ∈ r.occs, heapTop ≤ y) ∧
      rs.Pairwise VarsApart := by
  induction list with
  | nil =>
    exact fun slot heapTop listCp =>
      ⟨[], heapTop, rfl, Nat.le_refl heapTop, .nil, fun _ h => absurd h not_mem_nil, .nil⟩
  | cons t list ih =>
    intro slot heapTop listCp
    rw [forall_mem_cons] at hlist
    obtain ⟨hren, hle⟩ := answer_run commaPsc slot heapTop hlist.1
    rw [copyAnswersFaaToHeap]
    generalize CellTerm.unnumberVarTermOpt commaPsc VarCell.num (prepareUnnumberTerm slot heapTop) t = car at hren hle ⊢
    obtain ⟨rs, top, hrun, htop, hall, hlow, hapart⟩ := ih hlist.2 car.2.slot (car.2.heapTop + 2) (car.1 :: listCp)
    refine ⟨car.1 :: rs, top, ?_, by omega, .cons (hren.mono (Nat.le_refl _) (by omega)) ?_, ?_, .cons ?_ hapart⟩
    · rw [hrun, reverse_cons, append_assoc]
      rfl
    · exact hall.imp fun t r h => h.mono (by omega) (Nat.le_refl _)
    · intro r hr y hy
      rcases mem_cons.1 hr with rfl | hr
      · exact (hren.2 y hy).1
      · have hy' := hlow r hr y hy
        omega
    · -- the variables of the first answer are below all the others
      intro r hr y hy hy'
      have htop' := (hren.2 y hy).2
      have hlow' := hlow r hr y hy'
      omega

def findallInserts (inserts : List ((ℕ → VarCell) × HeapTerm)) : List CellTerm :=
  inserts.foldl (fun ep p => (findallInsert p.1 ep p.2).1) []

theorem findallInserts_eq (inserts : List ((ℕ → VarCell) × HeapTerm)) :
    findallInserts inserts = (inserts.map fun p => (copyTermHeapToFaa p.1 p.2).1).reverse := by
  have hrun : ∀ ep, inserts.foldl (fun ep p => (findallInsert p.1 ep p.2).1) ep =
      (inserts.map fun p => (copyTermHeapToFaa p.1 p.2).1).reverse ++ ep := by
    induction inserts with
    | nil => exact fun ep => rfl
    | cons p inserts ih =>
      intro ep
      rw [foldl_cons, findallInsert_eq, ih, map_cons, reverse_cons, append_assoc]
      rfl
  rw [findallInserts, hrun, append_nil]

section
variable {cells : ℕ → VarCell}

theorem ordered_copy (h : Unnumbered cells) (t : HeapTerm) : Ordered (copyTermHeapToFaa cells t).1 := by
  rw [Ordered, (copyTermHeapToFaa_run h t).1, Tm.occs_rename, firsts_idxOf]
  exact pairwise_lt_range

theorem renames_copy (h : Unnumbered cells) {t : HeapTerm} {base top : ℕ} {u : Tm Label ℕ}
    (hu : Renames base top (copyTermHeapToFaa cells t).1.tree u) : Renames base top t.tree u := by
  obtain ⟨⟨σ, hinj, heq⟩, hnew⟩ := hu
  rw [(copyTermHeapToFaa_run h t).1] at hinj heq
  refine ⟨⟨σ ∘ (firsts [] t.tree.occs).idxOf, ?_, ?_⟩, hnew⟩
  · simp only [Tm.vars, append_nil, Tm.occs_rename] at hinj ⊢
    intro x hx y hy hxy
    have hidx := hinj (mem_map_of_mem hx) (mem_map_of_mem hy) hxy
    exact (idxOf_inj (mem_firsts.2 (.inr hx))).1 hidx
  · rw [← heq, Tm.mapVars, Tm.mapVars, Tm.mapVars, Tm.mapVars, Tm.rename_rename]

end

/-- `copy_term` makes a variant with new variables of every term without suspension variables, and refuses all others;
findall makes variants of all its answers, with different new variables in each; and the terms are left as they were. -/
theorem copies (commaPsc : Sym) (slot : ℕ → Tm Label ℕ) (heapTop : ℕ) :
    (∀ cells, Unnumbered cells → ∀ t : HeapTerm, (copyTerm commaPsc slot heapTop cells t).2 = cells ∧
      ((∃ x ∈ t.tree.occs, cells x = .susp) → (copyTerm commaPsc slot heapTop cells t).1 = none) ∧
      ((∀ x ∈ t.tree.occs, cells x ≠ .susp) → ∃ u top,
        (copyTerm commaPsc slot heapTop cells t).1 = some (u, top) ∧ Renames heapTop top t.tree u)) ∧
    (∀ cells, Unnumbered cells → ∀ (ep : List CellTerm) (t : HeapTerm), (findallInsert cells ep t).2 = cells) ∧
    ∀ inserts : List ((ℕ → VarCell) × HeapTerm), (∀ p ∈ inserts, Unnumbered p.1) → ∃ answers top,
      copyAnswersFaaToHeap commaPsc slot heapTop [] (findallInserts inserts) = (answers, top) ∧
      List.Forall₂ (fun p u => Renames heapTop top p.2.tree u) inserts answers ∧ answers.Pairwise VarsApart := by
  refine ⟨fun cells h t => copyTerm_run commaPsc slot heapTop h t, fun cells h ep t => ?_, fun inserts h => ?_⟩
  · rw [findallInsert_eq]
    exact (copyTermHeapToFaa_run h t).2
  · have hordered : ∀ t ∈ findallInserts inserts, Ordered t := by
      intro t ht
      rw [findallInserts_eq, mem_reverse, mem_map] at ht
      obtain ⟨p, hp, rfl⟩ := ht
      exact ordered_copy (h p hp) p.2
    obtain ⟨rs, top, hrun, -, hall, -, hapart⟩ := copyAnswersFaaToHeap_run commaPsc hordered slot heapTop []
    rw [append_nil] at hrun
    refine ⟨rs.reverse, top, hrun, ?_, ?_⟩
    · rw [findallInserts_eq, ← forall₂_reverse_iff, reverse_reverse, forall₂_map_left_iff] at hall
      rw [forall₂_iff_zip] at hall ⊢
      exact ⟨hall.1, fun {p u} hpu => renames_copy (h p (of_mem_zip hpu).1) (hall.2 hpu)⟩
    · rw [pairwise_reverse]
      exact hapart.imp fun h y hy hy' => h y hy' hy

/-- A suspension variable is not copied. -/
theorem copies_susp : ¬ ∀ (cells : ℕ → VarCell) (t : HeapTerm), Unnumbered cells →
      ∃ u top, (copyTerm 8 Tm.var 100 cells t).1 = some (u, top) ∧ Renames 100 top t.tree u := by
  intro h
  obtain ⟨u, top, hsome, -⟩ := h (fun _ => .susp) (.var 0) fun _ => rfl
  have hsusp : Unnumbered fun _ => VarCell.susp := fun _ => rfl
  have hnone := (copyTerm_run 8 Tm.var 100 hsusp (.var 0)).2.1 ⟨0, mem_singleton_self 0, rfl⟩
  rw [hnone] at hsome
  cases hsome

end Picat
