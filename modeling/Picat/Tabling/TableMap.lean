import Picat.Tabling.Subgoals

/-!
# Table maps

* `keyIdentical_iff` : keys of the same shape are identical, unless a suspension variable meets a numbered one.
-/

namespace Picat

open Chains Variants

/-! ## Keys -/

/-- A variable in a key: free, with suspensions, or numbered in the table area. -/
inductive KeyVar
  | free (x : ℕ)
  | susp (x : ℕ)
  | numbered (n : ℕ)

def TabledTerm.keyTerm (t : TabledTerm) : Tm Label KeyVar := t.tree.rename .numbered

/-- A key on the heap, where `susp` tells the suspension variables. -/
def HeapTerm.keyTerm (susp : ℕ → Bool) (t : HeapTerm) : Tm Label KeyVar :=
  t.tree.rename fun x => if susp x then .susp x else .free x

mutual

def keyIdentical : Tm Label KeyVar → Tm Label KeyVar → Bool
  -- neither a reference nor a numbered variable
  | .var (.numbered _), .var (.susp _) => false
  | .var (.numbered _), .var _ => true
  | .var _, .var (.numbered _) => false
  | .var _, .var _ => true
  | .var _, .app .. => false
  | .app .., .var _ => false
  | .app f ts, .app g us => decide (f = g) && keyIdenticalArgs ts us

def keyIdenticalArgs : List (Tm Label KeyVar) → List (Tm Label KeyVar) → Bool
  | [], [] => true
  | t :: ts, u :: us => keyIdentical t u && keyIdenticalArgs ts us
  | _, _ => false

end

/-! ## The map -/

/-- `MAP_RECORD` and the pairs: all below `top` are in the table. -/
structure TableMap where
  key : ℕ → TabledTerm
  val : ℕ → TabledTerm
  chains : Buckets ℕ
  count : ℕ
  top : ℕ

/-- `bp_exception` -/
inductive MapError
  | nonvariableExpected
  deriving DecidableEq

/-- `ISREF` on a dereferenced key. -/
def HeapTerm.isRef (susp : ℕ → Bool) : HeapTerm → Bool
  | .var x => !susp x
  | _ => false

namespace TableMap

/-- A new map, as `b_GET_PICAT_TABLE_MAP_cf` makes it. -/
def start : TableMap := ⟨fun _ => .var 0, fun _ => .var 0, ⟨7, fun _ => none, fun _ => none⟩, 0, 0⟩

/-- `bp_hashval` of a key, which is stored with it. -/
def hcode (m : TableMap) (a : ℕ) : ℕ := (m.key a).hashvalOfNumberedTerm

/-- `expand_picat_table_map`, which does nothing when there is no memory for the new buckets. -/
def expand (m : TableMap) (malloc : Bool) : Option TableMap :=
  if malloc then do
    let chains ← m.chains.rehash m.hcode (bpHsize (3 * m.chains.size)) m.top
    some { m with chains := chains }
  else some m

/-- `expand_picat_table_map`, when the table is `full`. -/
def expandIf (m : TableMap) (full : Bool) (malloc : Bool) : Option TableMap :=
  if full then m.expand malloc else some m

/-- The pair in the bucket of a hash code whose key is identical to `k`. -/
def lookup (m : TableMap) (hcode : ℕ) (k : Tm Label KeyVar) : Option (Option ℕ) :=
  search (fun a => some (keyIdentical (m.key a).keyTerm k)) m.chains.next m.top (m.chains.head (hcode % m.chains.size))

def push (m : TableMap) (hcode : ℕ) (key val : TabledTerm) : TableMap where
  key := Function.update m.key m.top key
  val := Function.update m.val m.top val
  chains := m.chains.push (hcode % m.chains.size) m.top
  count := m.count + 1
  top := m.top + 1

/-- `b_PICAT_TABLE_MAP_PUT_ccc`. The value is numbered after the key. -/
def put (m : TableMap) (susp : ℕ → Bool) (key val : HeapTerm) (malloc : Bool) : Option (Except MapError TableMap) :=
  if key.isRef susp then some (.error .nonvariableExpected)
  else do
    let keyCp := numberVarCopyToTableArea [] key
    let valCp := numberVarCopyToTableArea keyCp.vars val
    match ← m.lookup keyCp.hcode keyCp.term.keyTerm with
    | some a => some (.ok { m with val := Function.update m.val a valCp.term })
    | none =>
      let m := m.push keyCp.hcode keyCp.term valCp.term
      let m ← m.expandIf (2 * m.count > m.chains.size) malloc
      some (.ok m)

/-- `b_PICAT_TABLE_MAP_GET_ccf`: the value, rebuilt from `slot` and `heapTop` on, or no success. -/
def get (m : TableMap) (susp : ℕ → Bool) (key : HeapTerm) (slot : ℕ → Tm Label ℕ) (heapTop : ℕ) :
    Option (Except MapError (Option (Tm Label ℕ))) :=
  if key.isRef susp then some (.error .nonvariableExpected)
  else do
    match ← m.lookup (bpHashval key) (key.keyTerm susp) with
    | some a => some (.ok (some (unnumberVarTabledTerm (prepareUnnumberTerm slot heapTop) (m.val a)).1))
    | none => some (.ok none)

def pairs (m : TableMap) : List ℕ :=
  (List.range m.chains.size).flatMap fun i => chainNodes m.chains.next m.top (m.chains.head i)

/-- The slots and the heap after some pairs, and what they were rebuilt to. -/
structure Listing where
  list : List (Tm Label ℕ × Tm Label ℕ)
  slot : ℕ → Tm Label ℕ
  heapTop : ℕ

/-- One more pair of `b_PICAT_TABLE_MAP_LIST_cf`; the key and the value are rebuilt one without the other. -/
def listPair (m : TableMap) (l : Listing) (a : ℕ) : Listing :=
  let key := unnumberVarTabledTerm (prepareUnnumberTerm l.slot l.heapTop) (m.key a)
  let val := unnumberVarTabledTerm (prepareUnnumberTerm key.2.slot key.2.heapTop) (m.val a)
  ⟨(key.1, val.1) :: l.list, val.2.slot, val.2.heapTop⟩

/-- `b_PICAT_TABLE_MAP_LIST_cf` -/
def list (m : TableMap) (slot : ℕ → Tm Label ℕ) (heapTop : ℕ) : List (Tm Label ℕ × Tm Label ℕ) :=
  (m.pairs.foldl m.listPair ⟨[], slot, heapTop⟩).list

end TableMap

def shape {V : Type*} (t : Tm Label V) : Tm Label Unit := t.rename fun _ => ()

@[simp] theorem shape_rename {V W : Type*} (σ : V → W) (t : Tm Label V) : shape (t.rename σ) = shape t :=
  Tm.rename_rename σ _ t

/-- Keys of the same shape are identical, if no suspension variable stands in the second one. -/
theorem keyIdentical_iff (t : Tm Label ℕ) (u : Tm Label KeyVar) :
    keyIdentical (t.rename .numbered) u = true ↔ shape t = shape u ∧ ∀ x, .susp x ∉ u.occs := by
  induction t using Tm.induct generalizing u with
  | var x =>
    cases u with
    | var y => cases y <;> simp [Tm.rename, keyIdentical, shape, Tm.occs]
    | app g us => simp [Tm.rename, keyIdentical, shape]
  | app g ts ih =>
    cases u with
    | var y => simp [Tm.rename, keyIdentical, shape]
    | app g' us =>
      have hargs : ∀ us, keyIdenticalArgs (Tm.mapVars .numbered ts) us = true ↔
          Tm.mapVars (fun _ => ()) ts = Tm.mapVars (fun _ => ()) us ∧ ∀ x, .susp x ∉ Tm.vars us := by
        induction ts with
        | nil =>
          intro us
          cases us <;> simp [Tm.mapVars, keyIdenticalArgs, Tm.vars]
        | cons t ts ihts =>
          intro us
          rw [List.forall_mem_cons] at ih
          cases us with
          | nil => simp [Tm.mapVars, keyIdenticalArgs]
          | cons u us =>
            simp only [Tm.mapVars, keyIdenticalArgs, Bool.and_eq_true, ih.1, ihts ih.2, Tm.vars, List.mem_append,
              List.cons.injEq, not_or, shape, forall_and]
            tauto
      simp only [Tm.rename, keyIdentical, Bool.and_eq_true, decide_eq_true_eq, hargs, shape, Tm.app.injEq, Tm.occs]
      tauto

end Picat

/-! # Table maps over a run -/

namespace Picat

open Chains Variants Function List

/-! ## Copies -/

def keyCopy (k : HeapTerm) : TabledTerm := (numberVarCopyToTableArea [] k).term

def valCopy (k v : HeapTerm) : TabledTerm := (numberVarCopyToTableArea (numberVarCopyToTableArea [] k).vars v).term

variable {k : HeapTerm} {t : Tm Label ℕ} {vs : List ℕ} {a : ℕ}

theorem keyCopy_eq_iff {k k' : HeapTerm} : keyCopy k = keyCopy k' ↔ Variant [k.tree] [k'.tree] := by
  rw [show [k.tree] = HeapTerm.trees [k] from rfl, show [k'.tree] = HeapTerm.trees [k'] from rfl, ← answerTerms_eq_iff]
  exact singleton_inj.symm

theorem firsts_occs_rename {σ : ℕ → ℕ} (h : Set.InjOn σ {x | x ∈ t.occs}) :
    firsts [] (t.rename σ).occs = (firsts [] t.occs).map σ := by
  rw [Tm.occs_rename]
  exact firsts_map (h.mono fun x hx => hx.resolve_left not_mem_nil)

theorem firsts_eq_append {xs : List ℕ} (h : ∀ x ∈ xs, x ∉ vs) : firsts vs xs = vs ++ firsts [] xs := by
  have hgen : ∀ seen, firsts (vs ++ seen) xs = vs ++ firsts seen xs := by
    induction xs with
    | nil => exact fun _ => rfl
    | cons x xs ih =>
      intro seen
      rw [forall_mem_cons] at h
      rw [firsts, firsts, append_assoc, ih h.2, ih h.2]
      by_cases hx : x ∈ seen
      · simp [hx]
      · simp [hx, h.1]
  simpa using hgen []

/-- Variables that are not numbered yet get numbers that rise in the order in which they occur first. -/
theorem rising_copy {t : HeapTerm} (h : ∀ x ∈ t.tree.occs, x ∉ vs) :
    (firsts [] (numberVarCopyToTableArea vs t).term.tree.occs).Pairwise (· < ·) := by
  have hcopy := copy_spec vs t
  have hvars := hcopy.vars_eq.trans (firsts_eq_append h)
  have hnodup : (firsts [] t.tree.occs).Nodup := nodup_firsts nodup_nil
  have hidx : ∀ x ∈ t.tree.occs, (numberVarCopyToTableArea vs t).vars.idxOf x =
      vs.length + (firsts [] t.tree.occs).idxOf x := fun x hx => by
    rw [hvars, idxOf_append_of_notMem (h x hx)]
  have hinj : Set.InjOn (numberVarCopyToTableArea vs t).vars.idxOf {x | x ∈ t.tree.occs} := fun x hx y _ hxy =>
    (idxOf_inj (hvars ▸ mem_append_right _ (mem_firsts.2 (.inr hx)))).1 hxy
  rw [hcopy.tree_eq, firsts_occs_rename hinj, pairwise_map, pairwise_iff_getElem]
  intro i j hi hj hij
  have hmem : ∀ {k : ℕ} (hk : k < (firsts [] t.tree.occs).length), (firsts [] t.tree.occs)[k] ∈ t.tree.occs :=
    fun hk => (mem_firsts.1 (getElem_mem hk)).resolve_left not_mem_nil
  rw [hidx _ (hmem hi), hidx _ (hmem hj), hnodup.idxOf_getElem i hi, hnodup.idxOf_getElem j hj]
  exact Nat.add_lt_add_left hij _

/-- What a copy is rebuilt to, with new variables between two tops of the heap. -/
structure Renewed (t : Tm Label ℕ) (base : ℕ) (r : Tm Label ℕ × Unnumber) : Prop where
  exists_renaming : ∃ σ : ℕ → ℕ, Set.InjOn σ {x | x ∈ t.occs} ∧ r.1 = t.rename σ ∧
    ∀ x ∈ t.occs, base ≤ σ x ∧ σ x < r.2.heapTop
  le_heapTop : base ≤ r.2.heapTop

theorem renewed_copy {t : HeapTerm} (h : ∀ x ∈ t.tree.occs, x ∉ vs) (slot : ℕ → Tm Label ℕ)
    (heapTop : ℕ) : Renewed t.tree heapTop
      (unnumberVarTabledTerm (prepareUnnumberTerm slot heapTop) (numberVarCopyToTableArea vs t).term) := by
  have hcopy := copy_spec vs t
  obtain ⟨htree, hknows⟩ := unnumber_spec hcopy.isSealed (knows_prepare slot heapTop) (rising_copy h)
  set seen := firsts [] (numberVarCopyToTableArea vs t).term.tree.occs with hseen
  have hmem : ∀ x ∈ t.tree.occs, (numberVarCopyToTableArea vs t).vars.idxOf x ∈ seen := fun x hx => by
    rw [hseen, mem_firsts, hcopy.tree_eq, Tm.occs_rename]
    exact .inr (mem_map_of_mem hx)
  refine ⟨⟨newVar heapTop seen ∘ (numberVarCopyToTableArea vs t).vars.idxOf, fun x hx y hy hxy => ?_, ?_, fun x hx => ?_⟩,
    ?_⟩
  · have hidx := (idxOf_inj (hmem x hx)).1 (Nat.add_left_cancel hxy)
    refine (idxOf_inj ?_).1 hidx
    rw [hcopy.vars_eq, mem_firsts]
    exact .inr hx
  · rw [htree, hcopy.tree_eq, Tm.rename_rename]
  · rw [hknows.heapTop_eq, comp_apply, newVar]
    exact ⟨Nat.le_add_right _ _, Nat.add_lt_add_left (idxOf_lt_length_iff.2 (hmem x hx)) _⟩
  · rw [hknows.heapTop_eq]
    exact Nat.le_add_right _ _

theorem Renewed.variant {base : ℕ} {r : Tm Label ℕ × Unnumber} (h : Renewed t base r) : Variant [t] [r.1] := by
  obtain ⟨σ, hinj, heq, -⟩ := h.exists_renaming
  refine ⟨σ, hinj.mono fun x hx => ?_, by rw [heq]; rfl⟩
  simpa [Tm.vars] using hx

theorem Renewed.variant_pair {u : Tm Label ℕ} {base : ℕ} {r s : Tm Label ℕ × Unnumber} (ht : Renewed t base r)
    (hu : Renewed u r.2.heapTop s) (hdisj : ∀ x ∈ t.occs, x ∉ u.occs) : Variant [t, u] [r.1, s.1] := by
  obtain ⟨σ, hσ, hr, hσlt⟩ := ht.exists_renaming
  obtain ⟨τ, hτ, hs, hτle⟩ := hu.exists_renaming
  have hleft : ∀ x ∈ t.occs, (if x ∈ t.occs then σ x else τ x) = σ x := fun x hx => if_pos hx
  have hright : ∀ x ∈ u.occs, (if x ∈ t.occs then σ x else τ x) = τ x := fun x hx =>
    if_neg fun hxt => hdisj x hxt hx
  refine ⟨fun x => if x ∈ t.occs then σ x else τ x, fun x hx y hy hxy => ?_, ?_⟩
  · have hmem : ∀ z ∈ Tm.vars [t, u], z ∈ t.occs ∨ z ∈ u.occs := fun z hz => by simpa [Tm.vars] using hz
    beta_reduce at hxy
    rcases hmem x hx with hx | hx <;> rcases hmem y hy with hy | hy
    · rw [hleft x hx, hleft y hy] at hxy
      exact hσ hx hy hxy
    · rw [hleft x hx, hright y hy] at hxy
      exact absurd hxy (Nat.ne_of_lt (Nat.lt_of_lt_of_le (hσlt x hx).2 (hτle y hy).1))
    · rw [hright x hx, hleft y hy] at hxy
      exact absurd hxy.symm (Nat.ne_of_lt (Nat.lt_of_lt_of_le (hσlt y hy).2 (hτle x hx).1))
    · rw [hright x hx, hright y hy] at hxy
      exact hτ hx hy hxy
  · simp only [Tm.mapVars]
    rw [Tm.rename_congr t hleft, Tm.rename_congr u hright, hr, hs]

/-! ## The pairs of a map -/

def latest (puts : List (HeapTerm × HeapTerm)) (k : HeapTerm) : Option (HeapTerm × HeapTerm) :=
  puts.reverse.find? fun p => decide (keyCopy p.1 = keyCopy k)

theorem latest_append (puts : List (HeapTerm × HeapTerm)) (k v k' : HeapTerm) :
    latest (puts ++ [(k, v)]) k' = if keyCopy k = keyCopy k' then some (k, v) else latest puts k' := by
  rw [latest, reverse_append, reverse_singleton, singleton_append, List.find?_cons]
  by_cases h : keyCopy k = keyCopy k'
  · simp [h]
  · simp [h, latest]

theorem latest_congr (puts : List (HeapTerm × HeapTerm)) {k' : HeapTerm} (h : keyCopy k = keyCopy k') :
    latest puts k = latest puts k' := by rw [latest, latest, h]

namespace TableMap

/-- The map holds the latest pair of every key that was put, and nothing else. -/
structure Stores (m : TableMap) (puts : List (HeapTerm × HeapTerm)) : Prop where
  holds : m.chains.Holds m.hcode (List.range m.top)
  eq_of_key : ∀ a < m.top, ∀ b < m.top, m.key a = m.key b → a = b
  latest_eq : ∀ a < m.top, ∃ k v, latest puts k = some (k, v) ∧ m.key a = keyCopy k ∧ m.val a = valCopy k v ∧
    ∀ x ∈ k.tree.occs, x ∉ v.tree.occs
  exists_key : ∀ p ∈ puts, ∃ a < m.top, m.key a = keyCopy p.1

def ShapesVary (m : TableMap) (k : HeapTerm) : Prop :=
  ∀ a < m.top, shape (m.key a).tree = shape k.tree → m.key a = keyCopy k

/-- Stored keys of the shape of the new one are variants of it, and key and value have no variable in common. -/
def PutOk (m : TableMap) (k v : HeapTerm) : Prop :=
  m.ShapesVary k ∧ ∀ x ∈ k.tree.occs, x ∉ v.tree.occs

/-- Stored keys of the shape of a key are variants of it, and if there are any, the key is no variable and has no
suspension variable. -/
def GetOk (m : TableMap) (susp : ℕ → Bool) (k : HeapTerm) : Prop :=
  m.ShapesVary k ∧ ∀ a < m.top, shape (m.key a).tree = shape k.tree →
    k.isRef susp = false ∧ ∀ x ∈ k.tree.occs, susp x = false

variable {m : TableMap} {puts : List (HeapTerm × HeapTerm)}

theorem stores_start : start.Stores [] :=
  ⟨Buckets.holds_empty (by decide) _, fun _ h => absurd h (Nat.not_lt_zero _), fun _ h => absurd h (Nat.not_lt_zero _),
    fun _ h => absurd h not_mem_nil⟩

theorem shape_keyCopy (k : HeapTerm) : shape (keyCopy k).tree = shape k.tree := by
  rw [keyCopy, (copy_spec [] k).tree_eq, shape_rename]

theorem Stores.lookup_eq (h : m.Stores puts) {t : Tm Label KeyVar}
    (ht : ∀ a < m.top, keyIdentical (m.key a).keyTerm t = decide (m.key a = keyCopy k)) :
    m.lookup (bpHashval k) t = some ((List.range m.top).find? fun a => decide (m.key a = keyCopy k)) := by
  have hmem : ∀ a ∈ chainNodes m.chains.next m.top (m.chains.head (bpHashval k % m.chains.size)), a < m.top :=
    fun a ha => mem_range.1 ((h.holds.mem_chainNodes (Nat.le_of_eq length_range) _).1 ha).1
  refine h.holds.search_eq (Nat.le_of_eq length_range) (fun a ha => ?_) (fun a ha heq => ?_) (fun a _ heq => ?_)
    fun a ha b hb heq heq' => ?_
  · have hne : (!decide (m.key a = keyCopy k)) = true :=
      mem_takeWhile_imp (p := fun a => !decide (m.key a = keyCopy k)) ha
    rw [Bool.not_eq_true'] at hne
    rw [ht a (hmem a (( takeWhile_prefix _).subset ha)), hne]
  · rw [ht a (mem_range.1 ha), heq]
  · rw [hcode, of_decide_eq_true heq]
    exact (copy_spec [] k).hashval_eq
  · exact h.eq_of_key a (mem_range.1 ha) b (mem_range.1 hb)
      ((of_decide_eq_true heq).trans (of_decide_eq_true heq').symm)

theorem ShapesVary.keyIdentical_copy (h : m.ShapesVary k) (ha : a < m.top) :
    keyIdentical (m.key a).keyTerm (keyCopy k).keyTerm = decide (m.key a = keyCopy k) := by
  rw [Bool.eq_iff_iff, decide_eq_true_eq, TabledTerm.keyTerm, TabledTerm.keyTerm, keyIdentical_iff, shape_rename,
    shape_keyCopy]
  refine ⟨fun heq => h a ha heq.1, fun heq => ⟨by rw [heq, shape_keyCopy], fun x hx => ?_⟩⟩
  rw [Tm.occs_rename, mem_map] at hx
  obtain ⟨n, -, hn⟩ := hx
  cases hn

theorem GetOk.keyIdentical_key {susp : ℕ → Bool} (h : m.GetOk susp k) (ha : a < m.top) :
    keyIdentical (m.key a).keyTerm (k.keyTerm susp) = decide (m.key a = keyCopy k) := by
  rw [Bool.eq_iff_iff, decide_eq_true_eq, TabledTerm.keyTerm, HeapTerm.keyTerm, keyIdentical_iff, shape_rename]
  refine ⟨fun heq => h.1 a ha heq.1, fun heq => ⟨by rw [heq, shape_keyCopy], fun x hx => ?_⟩⟩
  have hsusp := (h.2 a ha (by rw [heq, shape_keyCopy])).2
  rw [Tm.occs_rename, mem_map] at hx
  obtain ⟨y, hy, hxy⟩ := hx
  rw [hsusp y hy] at hxy
  cases hxy

section
variable (h : m.Stores puts)
include h

theorem Stores.find?_isSome_iff (k : HeapTerm) :
    ((List.range m.top).find? fun a => decide (m.key a = keyCopy k)).isSome ↔ (latest puts k).isSome := by
  rw [List.find?_isSome, latest, List.find?_isSome]
  constructor
  · intro hboth
    obtain ⟨a, ha, heq⟩ := hboth
    obtain ⟨k', v, hlatest, hkey, -⟩ := h.latest_eq a (mem_range.1 ha)
    exact ⟨(k', v), mem_of_find?_eq_some hlatest, decide_eq_true (hkey.symm.trans (of_decide_eq_true heq))⟩
  · intro hboth
    obtain ⟨p, hp, heq⟩ := hboth
    obtain ⟨a, ha, hkey⟩ := h.exists_key p (mem_reverse.1 hp)
    exact ⟨a, mem_range.2 ha, decide_eq_true (hkey.trans (of_decide_eq_true heq))⟩

theorem Stores.get_eq {susp : ℕ → Bool} (hok : m.GetOk susp k)
    (href : k.isRef susp = false) (slot : ℕ → Tm Label ℕ) (heapTop : ℕ) :
    match latest puts k with
    | none => m.get susp k slot heapTop = some (.ok none)
    | some (_, v) => ∃ r, m.get susp k slot heapTop = some (.ok (some r)) ∧ Variant [v.tree] [r] := by
  have hlookup := h.lookup_eq (k := k) fun a ha => hok.keyIdentical_key ha
  have hsome := h.find?_isSome_iff k
  rw [get, if_neg (by rw [href]; exact Bool.false_ne_true), hlookup]
  cases hfind : (List.range m.top).find? fun a => decide (m.key a = keyCopy k) with
  | none =>
    rw [hfind] at hsome
    rw [Option.not_isSome_iff_eq_none.1 fun hs => Bool.false_ne_true (hsome.2 hs)]
    rfl
  | some a =>
    have hkey := List.find?_some hfind
    rw [decide_eq_true_eq] at hkey
    obtain ⟨k', v, hlatest, hkey', hval, hdisj⟩ :=
      h.latest_eq a (mem_range.1 (mem_of_find?_eq_some hfind))
    rw [latest_congr puts (hkey'.symm.trans hkey)] at hlatest
    rw [hlatest]
    refine ⟨_, rfl, ?_⟩
    rw [hval]
    refine (renewed_copy (fun x hx hmem => ?_) slot heapTop).variant
    rw [(copy_spec [] k').vars_eq, mem_firsts] at hmem
    exact hdisj x (hmem.resolve_left not_mem_nil) hx

theorem Stores.push {v : HeapTerm} (hnew : ∀ a < m.top, m.key a ≠ keyCopy k)
    (hdisj : ∀ x ∈ k.tree.occs, x ∉ v.tree.occs) :
    (m.push (bpHashval k) (keyCopy k) (valCopy k v)).Stores (puts ++ [(k, v)]) := by
  have hkey : ∀ a < m.top, (m.push (bpHashval k) (keyCopy k) (valCopy k v)).key a = m.key a := fun a ha =>
    update_of_ne ha.ne ..
  have hval : ∀ a < m.top, (m.push (bpHashval k) (keyCopy k) (valCopy k v)).val a = m.val a := fun a ha =>
    update_of_ne ha.ne ..
  have hkeyTop : (m.push (bpHashval k) (keyCopy k) (valCopy k v)).key m.top = keyCopy k := update_self ..
  have hvalTop : (m.push (bpHashval k) (keyCopy k) (valCopy k v)).val m.top = valCopy k v := update_self ..
  have hself : latest (puts ++ [(k, v)]) k = some (k, v) := by rw [latest_append, if_pos rfl]
  refine ⟨?_, fun a ha b hb hab => ?_, fun a ha => ?_, fun p hp => ?_⟩
  · have hold : m.chains.Holds (m.push (bpHashval k) (keyCopy k) (valCopy k v)).hcode (List.range m.top) :=
      h.holds.congr_hash fun a ha => by rw [hcode, hkey a (mem_range.1 ha), hcode]
    have hpush := hold.push (a := m.top) (by simp)
    rw [hcode, hkeyTop, show (keyCopy k).hashvalOfNumberedTerm = bpHashval k from (copy_spec [] k).hashval_eq] at hpush
    apply hpush.congr
    intro a
    rw [mem_range, mem_cons, mem_range]
    exact Nat.lt_succ_iff.trans (Nat.le_iff_lt_or_eq.trans or_comm)
  · rcases Nat.lt_succ_iff_lt_or_eq.1 ha with ha | rfl <;> rcases Nat.lt_succ_iff_lt_or_eq.1 hb with hb | rfl
    · rw [hkey a ha, hkey b hb] at hab
      exact h.eq_of_key a ha b hb hab
    · rw [hkey a ha, hkeyTop] at hab
      exact absurd hab (hnew a ha)
    · rw [hkey b hb, hkeyTop] at hab
      exact absurd hab.symm (hnew b hb)
    · rfl
  · rcases Nat.lt_succ_iff_lt_or_eq.1 ha with ha | rfl
    · obtain ⟨k', v', hlatest, hk', hv', hdisj'⟩ := h.latest_eq a ha
      refine ⟨k', v', ?_, (hkey a ha).trans hk', (hval a ha).trans hv', hdisj'⟩
      rw [latest_append, if_neg fun heq => hnew a ha (hk'.trans heq.symm)]
      exact hlatest
    · exact ⟨k, v, hself, hkeyTop, hvalTop, hdisj⟩
  · rcases mem_append.1 hp with hp | hp
    · obtain ⟨a, ha, hk'⟩ := h.exists_key p hp
      exact ⟨a, Nat.lt_succ_of_lt ha, (hkey a ha).trans hk'⟩
    · rw [mem_singleton.1 hp]
      exact ⟨m.top, Nat.lt_succ_self _, hkeyTop⟩

theorem Stores.replace {v : HeapTerm} (ha : a < m.top) (hkey : m.key a = keyCopy k)
    (hdisj : ∀ x ∈ k.tree.occs, x ∉ v.tree.occs) :
    ({ m with val := update m.val a (valCopy k v) } : TableMap).Stores (puts ++ [(k, v)]) := by
  refine ⟨h.holds, h.eq_of_key, fun b hb => ?_, fun p hp => ?_⟩
  · by_cases hba : b = a
    · refine ⟨k, v, by rw [latest_append, if_pos rfl], hba ▸ hkey, ?_, hdisj⟩
      rw [hba]
      exact update_self ..
    · obtain ⟨k', v', hlatest, hk', hv', hdisj'⟩ := h.latest_eq b hb
      refine ⟨k', v', ?_, hk', (update_of_ne hba ..).trans hv', hdisj'⟩
      rw [latest_append, if_neg fun heq => hba (h.eq_of_key b hb a ha (hk'.trans (heq.symm.trans hkey.symm)))]
      exact hlatest
  · rcases mem_append.1 hp with hp | hp
    · exact h.exists_key p hp
    · rw [mem_singleton.1 hp]
      exact ⟨a, ha, hkey⟩

theorem Stores.expandIf (full malloc : Bool) : ∃ m', m.expandIf full malloc = some m' ∧ m'.Stores puts := by
  cases full with
  | false => exact ⟨m, rfl, h⟩
  | true =>
    cases malloc with
    | false => exact ⟨m, rfl, h⟩
    | true =>
      obtain ⟨chains, hchains, -, hholds⟩ :=
        h.holds.rehash (Nat.zero_lt_of_lt (lt_bpHsize (3 * m.chains.size))) (Nat.le_of_eq length_range)
      refine ⟨{ m with chains := chains }, ?_, hholds, h.eq_of_key, h.latest_eq, h.exists_key⟩
      rw [TableMap.expandIf, if_pos rfl, expand, if_pos rfl, hchains]
      rfl

theorem Stores.put {susp : ℕ → Bool} {k v : HeapTerm} (href : k.isRef susp = false)
    (hok : m.PutOk k v) (malloc : Bool) :
    ∃ m', m.put susp k v malloc = some (.ok m') ∧ m'.Stores (puts ++ [(k, v)]) := by
  have hlookup := h.lookup_eq fun a ha => hok.1.keyIdentical_copy ha
  rw [TableMap.put, if_neg (by rw [href]; exact Bool.false_ne_true)]
  simp only [(copy_spec [] k).hcode_eq]
  rw [← keyCopy, ← valCopy, hlookup, Option.bind_eq_bind, Option.bind_some]
  cases hfind : (List.range m.top).find? fun a => decide (m.key a = keyCopy k) with
  | some a =>
    have hkey := List.find?_some hfind
    rw [decide_eq_true_eq] at hkey
    exact ⟨_, rfl, h.replace (mem_range.1 (mem_of_find?_eq_some hfind)) hkey hok.2⟩
  | none =>
    rw [List.find?_eq_none] at hfind
    obtain ⟨m', hexpand, hstores⟩ := (h.push (k := k) (v := v)
      (fun a ha heq => hfind a (mem_range.2 ha) (decide_eq_true heq)) hok.2).expandIf
      (2 * (m.push (bpHashval k) (keyCopy k) (valCopy k v)).count >
        (m.push (bpHashval k) (keyCopy k) (valCopy k v)).chains.size) malloc
    refine ⟨m', ?_, hstores⟩
    simp only [Option.bind_eq_bind, Option.bind_some, hexpand]

/-- Some of the pairs, listed in front of what is there: each a variant of the latest pair of its key. -/
theorem Stores.foldl_listPair {as : List ℕ} (has : ∀ a ∈ as, a < m.top) (l : Listing) :
    ∃ ps part, (as.foldl m.listPair l).list = part ++ l.list ∧
      List.Forall₂ (fun p q => Variant [p.1.tree, p.2.tree] [q.1, q.2]) ps part ∧
      ps.map (fun p => keyCopy p.1) = (as.map m.key).reverse ∧ ∀ p ∈ ps, latest puts p.1 = some p := by
  induction as generalizing l with
  | nil => exact ⟨[], [], rfl, .nil, rfl, fun _ h => absurd h not_mem_nil⟩
  | cons a as ih =>
    rw [forall_mem_cons] at has
    obtain ⟨ps, part, hlist, hvariants, hkeys, hlatest⟩ := ih has.2 (m.listPair l a)
    obtain ⟨k, v, hlatest', hkey, hval, hdisj⟩ := h.latest_eq a has.1
    have hk : Renewed k.tree l.heapTop (unnumberVarTabledTerm (prepareUnnumberTerm l.slot l.heapTop) (m.key a)) := by
      rw [hkey]
      exact renewed_copy (fun _ _ => not_mem_nil) l.slot l.heapTop
    have hv : ∀ slot heapTop, Renewed v.tree heapTop
        (unnumberVarTabledTerm (prepareUnnumberTerm slot heapTop) (m.val a)) := fun slot heapTop => by
      rw [hval]
      refine renewed_copy (fun x hx hmem => ?_) slot heapTop
      rw [(copy_spec [] k).vars_eq, mem_firsts] at hmem
      exact hdisj x (hmem.resolve_left not_mem_nil) hx
    have hpair := hk.variant_pair
      (hv (unnumberVarTabledTerm (prepareUnnumberTerm l.slot l.heapTop) (m.key a)).2.slot _) hdisj
    refine ⟨ps ++ [(k, v)], part ++ [(_, _)], ?_, rel_append hvariants (.cons hpair .nil), ?_, fun p hp => ?_⟩
    · rw [foldl_cons, hlist, append_assoc]
      rfl
    · rw [List.map_append, hkeys, map_singleton, map_cons, reverse_cons, hkey]
    · rcases mem_append.1 hp with hp | hp
      · exact hlatest p hp
      · rw [mem_singleton.1 hp]
        exact hlatest'

end

end TableMap

/-! ## Runs -/

/-- The last pair of the sequence whose key is a variant of `k`. -/
def IsLatest (puts : List (HeapTerm × HeapTerm)) (k : HeapTerm) (p : HeapTerm × HeapTerm) : Prop :=
  ∃ pre post, puts = pre ++ p :: post ∧ Variant [p.1.tree] [k.tree] ∧ ∀ q ∈ post, ¬Variant [q.1.tree] [k.tree]

theorem isLatest_of_latest {puts : List (HeapTerm × HeapTerm)} {p : HeapTerm × HeapTerm}
    (h : latest puts k = some p) : IsLatest puts k p := by
  obtain ⟨hp, pre, post, hputs, hpre⟩ := List.find?_eq_some_iff_append.1 h
  refine ⟨post.reverse, pre.reverse, ?_, keyCopy_eq_iff.1 (of_decide_eq_true hp), fun q hq hvariant => ?_⟩
  · rw [← reverse_reverse puts, hputs]
    simp
  · have hne := hpre q (mem_reverse.1 hq)
    rw [decide_eq_true (keyCopy_eq_iff.2 hvariant)] at hne
    cases hne

/-- The pairs that have been put, and the map; suspension variables may come and go. -/
inductive MapRun (ok : TableMap → HeapTerm → HeapTerm → Prop) : List (HeapTerm × HeapTerm) → TableMap → Prop
  | start : MapRun ok [] .start
  | put {puts : List (HeapTerm × HeapTerm)} {m m' : TableMap} (h : MapRun ok puts m) {susp : ℕ → Bool}
      {k v : HeapTerm} {malloc : Bool} (hok : ok m k v) (hput : m.put susp k v malloc = some (.ok m')) :
      MapRun ok (puts ++ [(k, v)]) m'

theorem MapRun.stores {puts : List (HeapTerm × HeapTerm)} {m : TableMap} (h : MapRun TableMap.PutOk puts m) :
    m.Stores puts := by
  induction h with
  | start => exact TableMap.stores_start
  | @put puts m m' _ susp k v malloc hok hput ih =>
    cases href : k.isRef susp with
    | true =>
      rw [TableMap.put, if_pos href] at hput
      cases hput
    | false =>
      obtain ⟨m'', hput', hstores⟩ := ih.put href hok malloc
      rw [hput'] at hput
      cases hput
      exact hstores

/-- A read succeeds if and only if a variant of its key was put, and gives a variant of the latest value; the list has a
variant of the latest pair of every key, once; and the next pair can be put. -/
theorem mapRun_refines {puts : List (HeapTerm × HeapTerm)} {m : TableMap} (h : MapRun TableMap.PutOk puts m) :
    (∀ susp k slot heapTop, m.GetOk susp k →
      ((∃ r, m.get susp k slot heapTop = some (.ok (some r))) ↔ ∃ p ∈ puts, Variant [p.1.tree] [k.tree]) ∧
      ∀ r, m.get susp k slot heapTop = some (.ok (some r)) → ∃ p, IsLatest puts k p ∧ Variant [p.2.tree] [r]) ∧
    (∀ slot heapTop, ∃ ps : List (HeapTerm × HeapTerm),
      List.Forall₂ (fun p q => Variant [p.1.tree, p.2.tree] [q.1, q.2]) ps (m.list slot heapTop) ∧
      ps.Pairwise (fun p q => ¬Variant [p.1.tree] [q.1.tree]) ∧ (∀ p ∈ ps, IsLatest puts p.1 p) ∧
      ∀ p ∈ puts, ∃ q ∈ ps, Variant [q.1.tree] [p.1.tree]) ∧
    ∀ susp k v malloc, k.isRef susp = false → m.PutOk k v → ∃ m', m.put susp k v malloc = some (.ok m') := by
  have hstores := h.stores
  refine ⟨fun susp k slot heapTop hok => ?_, fun slot heapTop => ?_, fun susp k v malloc href hok => ?_⟩
  · cases href : k.isRef susp with
    | true =>
      -- no success, and no stored key is a variable
      have hget : ∀ r, m.get susp k slot heapTop ≠ some (.ok (some r)) := fun r heq => by
        rw [TableMap.get, if_pos href] at heq
        cases heq
      refine ⟨⟨fun ⟨r, hr⟩ => absurd hr (hget r), fun ⟨p, hp, hvariant⟩ => ?_⟩, fun r hr => absurd hr (hget r)⟩
      obtain ⟨a, ha, hkey⟩ := hstores.exists_key p hp
      have hshape := (hok.2 a ha (by rw [hkey, keyCopy_eq_iff.2 hvariant, TableMap.shape_keyCopy])).1
      rw [href] at hshape
      cases hshape
    | false =>
      have hget := hstores.get_eq hok href slot heapTop
      have hlatest : (latest puts k).isSome ↔ ∃ p ∈ puts, Variant [p.1.tree] [k.tree] := by
        simp only [latest, List.find?_isSome, mem_reverse, decide_eq_true_eq, keyCopy_eq_iff]
      rw [← hlatest]
      cases hk : latest puts k with
      | none =>
        rw [hk] at hget
        refine ⟨⟨fun ⟨r, hr⟩ => ?_, fun hs => Bool.noConfusion hs⟩, fun r hr => ?_⟩
        · rw [hget] at hr
          cases hr
        · rw [hget] at hr
          cases hr
      | some p =>
        rw [hk] at hget
        obtain ⟨r, hr, hvariant⟩ := hget
        refine ⟨⟨fun _ => rfl, fun _ => ⟨r, hr⟩⟩, fun r' hr' => ⟨p, isLatest_of_latest hk, ?_⟩⟩
        rw [hr] at hr'
        cases hr'
        exact hvariant
  · obtain ⟨hnodup, hmem⟩ := hstores.holds.flatMap_chainNodes (Nat.le_of_eq length_range)
    have hlt : ∀ a ∈ m.pairs, a < m.top := fun a ha => mem_range.1 ((hmem a).1 ha)
    obtain ⟨ps, part, hlist, hvariants, hkeys, hlatest⟩ := hstores.foldl_listPair hlt ⟨[], slot, heapTop⟩
    rw [append_nil] at hlist
    refine ⟨ps, ?_, ?_, fun p hp => isLatest_of_latest (hlatest p hp), fun p hp => ?_⟩
    · rw [TableMap.list, hlist]
      exact hvariants
    · have hpairwise : (ps.map fun p => keyCopy p.1).Nodup := by
        rw [hkeys, nodup_reverse]
        exact List.Nodup.map_on (fun a ha b hb hab => hstores.eq_of_key a (hlt a ha) b (hlt b hb) hab) hnodup
      rw [List.Nodup, pairwise_map] at hpairwise
      exact hpairwise.imp fun hne hvariant => hne (keyCopy_eq_iff.2 hvariant)
    · obtain ⟨a, ha, hkey⟩ := hstores.exists_key p hp
      have hin : m.key a ∈ ps.map fun p => keyCopy p.1 := by
        rw [hkeys, mem_reverse]
        exact mem_map_of_mem ((hmem a).2 (mem_range.2 ha))
      obtain ⟨q, hq, hqa⟩ := mem_map.1 hin
      exact ⟨q, hq, keyCopy_eq_iff.1 (hqa.trans hkey)⟩
  · obtain ⟨m', hput, -⟩ := hstores.put href hok malloc
    exact ⟨m', hput⟩

def TableMap.ofResult : Option (Except MapError TableMap) → Option TableMap
  | some (.ok m) => some m
  | _ => none

theorem TableMap.ofResult_eq_some {r : Option (Except MapError TableMap)} {m : TableMap} (h : ofResult r = some m) :
    r = some (.ok m) := by
  rcases r with _ | _ | m'
  · cases h
  · cases h
  · rw [Option.some.inj h]

theorem mapRun_refines_one_pair : ∃ m r, MapRun TableMap.PutOk [(.str 16 (.var 0) [], .var 1)] m ∧
    m.get (fun _ => false) (.str 16 (.var 5) []) (fun _ => .var 0) 9 = some (.ok (some r)) := by
  have hput : (TableMap.ofResult (TableMap.start.put (fun _ => false) (.str 16 (.var 0) []) (.var 1) true)).any
      (fun m => decide (m.top = 1 ∧ m.key 0 = keyCopy (.str 16 (.var 5) []))) = true := by
    decide +kernel
  simp only [Option.any_eq_true, decide_eq_true_eq] at hput
  obtain ⟨m, hm, htop, hkey⟩ := hput
  have hrun : MapRun TableMap.PutOk [(.str 16 (.var 0) [], .var 1)] m :=
    MapRun.start.put ⟨fun a ha => absurd ha (Nat.not_lt_zero a), by decide⟩ (TableMap.ofResult_eq_some hm)
  have hok : m.GetOk (fun _ => false) (.str 16 (.var 5) []) := by
    refine ⟨fun a ha _ => ?_, fun _ _ _ => ⟨rfl, fun _ _ => rfl⟩⟩
    rw [htop, Nat.lt_one_iff] at ha
    rw [ha, hkey]
  obtain ⟨r, hr⟩ := ((mapRun_refines hrun).1 _ _ (fun _ => .var 0) 9 hok).1.2
    ⟨_, mem_singleton_self _, keyCopy_eq_iff.1 (by decide)⟩
  exact ⟨m, r, hrun, hr⟩

/-- The pair of `f(X,X)` and an atom, which is read with the key `f(Y,Z)`. -/
theorem mapRun_merged_variables : ∃ m r, MapRun (fun _ _ _ => True) [(.str 16 (.var 0) [.var 0], .atm 10)] m ∧
    m.get (fun _ => false) (.str 16 (.var 5) [.var 6]) (fun _ => .var 0) 9 = some (.ok (some r)) ∧
      ¬∃ p ∈ [((.str 16 (.var 0) [.var 0], .atm 10) : HeapTerm × HeapTerm)],
        Variant [p.1.tree] [(HeapTerm.str 16 (.var 5) [.var 6]).tree] := by
  have hput : (TableMap.ofResult (TableMap.start.put (fun _ => false) (.str 16 (.var 0) [.var 0]) (.atm 10) true)).any
      (fun m => (m.get (fun _ => false) (.str 16 (.var 5) [.var 6]) (fun _ => .var 0) 9).any fun e =>
        e.toOption.any Option.isSome) = true := by
    decide +kernel
  simp only [Option.any_eq_true] at hput
  obtain ⟨m, hm, e, hget, found, he, hfound⟩ := hput
  obtain ⟨r, rfl⟩ := Option.isSome_iff_exists.1 hfound
  have hr : m.get (fun _ => false) (.str 16 (.var 5) [.var 6]) (fun _ => .var 0) 9 = some (.ok (some r)) := by
    cases e with
    | ok o =>
      cases he
      exact hget
    | error stop => cases he
  refine ⟨m, r, MapRun.start.put trivial (TableMap.ofResult_eq_some hm), hr, ?_⟩
  intro h
  obtain ⟨p, hp, hvariant⟩ := h
  rw [mem_singleton.1 hp] at hvariant
  exact absurd (keyCopy_eq_iff.2 hvariant) (by decide)

end Picat
