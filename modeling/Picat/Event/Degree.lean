import Picat.Event.MergeCs

/-!
# The degree of a domain variable

`fd_degree` walks the frames on the variable's `ins` list, argument by argument, and counts the variables that it meets.
It tells one that it has met before from the tag of the head of its own `ins` list, which it changes from a list's into
a structure's; a second walk changes the tags back.

* `cFdDegree_iff` : for which networks the degree is right.
-/

namespace Picat

open Function List

variable {M : Finset ℕ} {y : ℕ} {ι : Type}

namespace Degree

/-! ## Words and terms -/

def tagMask : BitVec 64 := 0x8000000000000003

def valMask0 : BitVec 64 := 0x7ffffffffffffffc

/-- `ISLIST`, of tag 3 -/
def isList (w : BitVec 64) : Prop := w &&& tagMask = 3

instance (w : BitVec 64) : Decidable (isList w) := inferInstanceAs (Decidable (_ = _))

/-- `ADDTAG(UNTAGGED_ADDR(w), STR)` -/
def strTagged (w : BitVec 64) : BitVec 64 := (w &&& valMask0) ||| 1

/-- `ADDTAG(UNTAGGED_ADDR(w), LST)` -/
def lstTagged (w : BitVec 64) : BitVec 64 := (w &&& valMask0) ||| 3

theorem strTagged_and_tagMask (w : BitVec 64) : strTagged w &&& tagMask = 1 := by
  have h : valMask0 &&& tagMask = 0 := by decide
  rw [strTagged, BitVec.and_or_distrib_right, BitVec.and_assoc, h]
  simp [tagMask]

theorem not_isList_strTagged (w : BitVec 64) : ¬ isList (strTagged w) := by
  rw [isList, strTagged_and_tagMask]
  decide

theorem lstTagged_strTagged {w : BitVec 64} (h : isList w) : lstTagged (strTagged w) = w := by
  have h1 : valMask0 &&& valMask0 = valMask0 := by decide
  have h2 : (1 : BitVec 64) &&& valMask0 = 0#64 := by decide
  have h3 : valMask0 ||| tagMask = BitVec.allOnes 64 := by decide
  calc lstTagged (strTagged w) = (w &&& valMask0) ||| 3 := by
        rw [lstTagged, strTagged, BitVec.and_or_distrib_right, BitVec.and_assoc, h1, h2, BitVec.or_zero]
    _ = (w &&& valMask0) ||| (w &&& tagMask) := by rw [show w &&& tagMask = 3 from h]
    _ = w := by rw [← BitVec.and_or_distrib_left, h3, BitVec.and_allOnes]

/-- An argument of a frame or of a term, with its references followed; a variable is told by its address. -/
inductive SlotTerm
  | var (x : ℕ)
  | atm
  | lst (car cdr : SlotTerm)
  | str (args : List SlotTerm)

namespace SlotTerm

theorem induct {P : SlotTerm → Prop} (var : ∀ x, P (var x)) (atm : P atm)
    (lst : ∀ car cdr, P car → P cdr → P (lst car cdr)) (str : ∀ args, (∀ t ∈ args, P t) → P (str args))
    (t : SlotTerm) : P t :=
  @SlotTerm.rec P (fun ts => ∀ t ∈ ts, P t) var atm lst str
    (fun _ h => absurd h not_mem_nil) (fun _ _ ht hts => forall_mem_cons.2 ⟨ht, hts⟩) t

mutual

def vars : SlotTerm → List ℕ
  | var x => [x]
  | atm => []
  | lst car cdr => vars car ++ vars cdr
  | str args => varsArgs args

def varsArgs : List SlotTerm → List ℕ
  | [] => []
  | t :: ts => vars t ++ varsArgs ts

end

mutual

/-- The variables that a walk meets: it passes over the last argument of a structure. -/
def met : SlotTerm → List ℕ
  | var x => [x]
  | atm => []
  | lst car cdr => met car ++ met cdr
  | str args => metArgs args

def metArgs : List SlotTerm → List ℕ
  | [] => []
  | t :: ts => if ts.isEmpty then [] else met t ++ metArgs ts

end

theorem mem_varsArgs {args : List SlotTerm} : y ∈ varsArgs args ↔ ∃ t ∈ args, y ∈ t.vars := by
  induction args with
  | nil => simp [varsArgs]
  | cons t ts ih => simp [varsArgs, ih]

end SlotTerm

/-- The variables, the heads of their event lists, and the frames. -/
structure Network where
  nilSym : BitVec 64
  /-- `nil_sym` is an atom. -/
  nilSym_atm : nilSym &&& tagMask = 2
  /-- `IS_SUSP_VAR`; the other variables are free ones. -/
  susp : ℕ → Bool
  cs : ℕ → EventKind → BitVec 64
  /-- An event list is empty or a list. -/
  cs_list : ∀ x k, susp x → cs x k = nilSym ∨ isList (cs x k)
  /-- The elements of a list, by its word. -/
  elems : BitVec 64 → List ℕ
  /-- The arguments of a frame, from `AR_BTM` down. -/
  frame : ℕ → List SlotTerm

/-! ## The routines -/

/-- The heads of the `ins` lists, `DV_ins_cs`. -/
abbrev Heads := ℕ → BitVec 64

mutual

/-- `dvar_degree_count_connected_vars_term`, from `start` on with the `count` that it has there. -/
def countTerm (net : Network) (count : ℕ) (ins : Heads) : SlotTerm → ℕ × Heads
  | .var x => if net.susp x ∧ isList (ins x) then (1, update ins x (strTagged (ins x))) else (count, ins)
  | .atm => (count, ins)
  | .lst car cdr =>
    let r := countTerm net 0 ins car
    countTerm net r.1 r.2 cdr
  | .str args => countArgs net 0 ins args

/-- The loop over the arguments, `i < arity`. -/
def countArgs (net : Network) (count : ℕ) (ins : Heads) : List SlotTerm → ℕ × Heads
  | [] => (count, ins)
  | t :: ts =>
    if ts.isEmpty then (count, ins)
    else
      let r := countTerm net 0 ins t
      countArgs net (count + r.1) r.2 ts

end

/-- `count +=` the count of a walk -/
def addCount {ι : Type} (walk : Heads → ι → ℕ × Heads) (r : ℕ × Heads) (i : ι) : ℕ × Heads :=
  let r' := walk r.2 i
  (r.1 + r'.1, r'.2)

/-- `dvar_degree_count_connected_vars_frame` -/
def countFrame (net : Network) (ins : Heads) (f : ℕ) : ℕ × Heads :=
  (net.frame f).foldl (addCount (countTerm net 0)) (0, ins)

/-- `dvar_degree_count_connected_vars_cs` -/
def countCs (net : Network) (ins : Heads) (cs : BitVec 64) : ℕ × Heads :=
  (net.elems cs).foldl (addCount (countFrame net)) (0, ins)

mutual

/-- `dvar_degree_reset_cs_tags_term` -/
def resetTerm (net : Network) (ins : Heads) : SlotTerm → Heads
  | .var x =>
    if net.susp x then
      if ins x = net.nilSym ∨ isList (ins x) then ins else update ins x (lstTagged (ins x))
    else ins
  | .atm => ins
  | .lst car cdr => resetTerm net (resetTerm net ins car) cdr
  | .str args => resetArgs net ins args

def resetArgs (net : Network) (ins : Heads) : List SlotTerm → Heads
  | [] => ins
  | t :: ts => if ts.isEmpty then ins else resetArgs net (resetTerm net ins t) ts

end

/-- `dvar_degree_reset_cs_tags_frame` -/
def resetFrame (net : Network) (ins : Heads) (f : ℕ) : Heads := (net.frame f).foldl (resetTerm net) ins

/-- `dvar_degree_reset_cs_tags_cs` -/
def resetCs (net : Network) (ins : Heads) (cs : BitVec 64) : Heads := (net.elems cs).foldl (resetFrame net) ins

/-- `c_fd_degree`, the degree and the heads that it leaves; `illegal_arguments` unless `Var` is a suspension variable. -/
def cFdDegree (net : Network) (ins : Heads) (x : ℕ) : Option (ℕ × Heads) :=
  if net.susp x then
    let cs := ins x
    if isList cs then
      -- mark it so it won't be counted twice
      let r := countCs net (update ins x (strTagged cs)) cs
      some (r.1, resetCs net (update r.2 x cs) cs)
    else some (0, ins)
  else none

/-! ## The degree -/

namespace Network

variable (net : Network)

def frames (x : ℕ) (k : EventKind) : List ℕ := if isList (net.cs x k) then net.elems (net.cs x k) else []

/-- The other variables of the frames on any of the variable's event lists. -/
def connected (x : ℕ) : Finset ℕ :=
  ([EventKind.ins, .minmax, .dom, .outerDom].flatMap fun k =>
    (net.frames x k).flatMap fun f => (net.frame f).flatMap SlotTerm.vars).toFinset.erase x

/-- A variable that can be marked: a suspension variable whose own `ins` list is not empty. -/
def HasIns (y : ℕ) : Prop := net.susp y ∧ isList (net.cs y .ins)

instance (y : ℕ) : Decidable (net.HasIns y) := inferInstanceAs (Decidable (_ ∧ _))

/-- The variables among `ys` that are marked when those of `M` are already. -/
def fresh (M : Finset ℕ) (ys : List ℕ) : Finset ℕ := ys.toFinset.filter fun y => net.HasIns y ∧ y ∉ M

/-- A term at the end of a list that leaves `count` as it is, the variables of `M` being marked. -/
def passes (M : Finset ℕ) : SlotTerm → Bool
  | .var y => ¬ net.HasIns y ∨ y ∈ M
  | .atm => true
  | .lst _ _ => false
  | .str _ => false

mutual

/-- No count is overwritten in the walk of a term, with `M` marked: what is in front of the rest of a list has nothing to be
marked, or the rest leaves the count alone. -/
def keeps (M : Finset ℕ) : SlotTerm → Bool
  | .var _ => true
  | .atm => true
  | .lst car cdr =>
    keeps M car && keeps (M ∪ car.met.toFinset) cdr &&
      (net.fresh M car.met = ∅ || net.passes (M ∪ car.met.toFinset) cdr)
  | .str args => keepsArgs M args

def keepsArgs (M : Finset ℕ) : List SlotTerm → Bool
  | [] => true
  | t :: ts => if ts.isEmpty then true else keeps M t && keepsArgs (M ∪ t.met.toFinset) ts

end

/-- The same for walks one after the other, each of which meets some variables. -/
def keepsAll {ι : Type} (met : ι → List ℕ) (keep : Finset ℕ → ι → Bool) (M : Finset ℕ) : List ι → Bool
  | [] => true
  | i :: is => keep M i && keepsAll met keep (M ∪ (met i).toFinset) is

def metFrame (f : ℕ) : List ℕ := (net.frame f).flatMap SlotTerm.met

/-- No count is overwritten in the walk of the variable's `ins` list. -/
def Keeps (x : ℕ) : Prop :=
  keepsAll net.metFrame (fun M f => keepsAll SlotTerm.met net.keeps M (net.frame f)) {x} (net.frames x .ins)

/-- Every variable connected to this one is found: it can be marked, and the walk meets it. -/
def Finds (x : ℕ) : Prop := ∀ y ∈ net.connected x, net.HasIns y ∧ y ∈ (net.frames x .ins).flatMap net.metFrame

instance (x : ℕ) : Decidable (net.Keeps x) := inferInstanceAs (Decidable (_ = true))

instance (x : ℕ) : Decidable (net.Finds x) := inferInstanceAs (Decidable (∀ y ∈ net.connected x, _))

/-- The heads of the `ins` lists when the variables of `M` are marked. -/
def marked (M : Finset ℕ) : Heads := fun y =>
  if y ∈ M ∧ net.HasIns y then strTagged (net.cs y .ins) else net.cs y .ins

@[simp] theorem mem_fresh {ys : List ℕ} : y ∈ net.fresh M ys ↔ y ∈ ys ∧ net.HasIns y ∧ y ∉ M := by
  simp [fresh]

theorem card_fresh_append (M : Finset ℕ) (ys zs : List ℕ) :
    (net.fresh M (ys ++ zs)).card = (net.fresh M ys).card + (net.fresh (M ∪ ys.toFinset) zs).card := by
  rw [← Finset.card_union_of_disjoint]
  · congr 1
    ext y
    simp only [mem_fresh, Finset.mem_union, mem_append, mem_toFinset]
    tauto
  · apply Finset.disjoint_left.2
    intro y hy hz
    simp only [mem_fresh, Finset.mem_union, mem_toFinset] at hy hz
    tauto

theorem keepsArgs_eq (M : Finset ℕ) (args : List SlotTerm) :
    net.keepsArgs M args = keepsAll SlotTerm.met net.keeps M args.dropLast := by
  induction args generalizing M with
  | nil => rfl
  | cons t ts ih =>
    cases ts with
    | nil => rfl
    | cons u us => rw [keepsArgs, ih]; rfl

theorem marked_empty : net.marked ∅ = fun y => net.cs y .ins := by
  funext y
  simp [marked]

theorem marked_of_mem (hM : y ∈ M) (hy : net.HasIns y) : net.marked M y = strTagged (net.cs y .ins) := if_pos ⟨hM, hy⟩

theorem marked_of_not (h : ¬ (y ∈ M ∧ net.HasIns y)) : net.marked M y = net.cs y .ins := if_neg h

theorem update_marked (hy : net.HasIns y) :
    update (net.marked M) y (strTagged (net.cs y .ins)) = net.marked (M ∪ {y}) := by
  funext z
  by_cases hz : z = y
  · subst hz
    rw [update_self, net.marked_of_mem (by simp) hy]
  · rw [update_of_ne hz]
    simp [marked, hz]

theorem update_marked_sdiff (y : ℕ) : update (net.marked M) y (net.cs y .ins) = net.marked (M \ {y}) := by
  funext z
  by_cases hz : z = y
  · subst hz
    rw [update_self, net.marked_of_not (by simp)]
  · rw [update_of_ne hz]
    simp [marked, hz]

theorem marked_union_of_not (h : ¬ net.HasIns y ∨ y ∈ M) : net.marked (M ∪ {y}) = net.marked M := by
  funext z
  have hz : (z ∈ M ∪ {y} ∧ net.HasIns z) ↔ (z ∈ M ∧ net.HasIns z) := by
    simp only [Finset.mem_union, Finset.mem_singleton]
    constructor
    · intro hz
      obtain ⟨hz | rfl, hi⟩ := hz
      · exact ⟨hz, hi⟩
      · exact ⟨h.resolve_left (not_not_intro hi), hi⟩
    · exact fun hz => ⟨.inl hz.1, hz.2⟩
  simp only [marked, hz]

theorem isList_marked : (net.susp y ∧ isList (net.marked M y)) ↔ net.HasIns y ∧ y ∉ M := by
  by_cases hm : y ∈ M ∧ net.HasIns y
  · rw [net.marked_of_mem hm.1 hm.2]
    simp [not_isList_strTagged, hm.1]
  · rw [net.marked_of_not hm]
    constructor
    · exact fun h => ⟨h, fun hM => hm ⟨hM, h⟩⟩
    · exact fun h => h.1

end Network

/-! ## The first walk -/

section Count
variable {net : Network}

/-- What a walk that meets `ys` returns, the variables of `M` being marked: it counts nothing that is not there to be
marked, and everything if no count is overwritten. -/
structure Counted (net : Network) (M : Finset ℕ) (ys : List ℕ) (keep : Bool) (r : ℕ × Heads) : Prop where
  heads : r.2 = net.marked (M ∪ ys.toFinset)
  le : r.1 ≤ (net.fresh M ys).card
  eq_iff : r.1 = (net.fresh M ys).card ↔ keep

theorem Counted.nil (M : Finset ℕ) : Counted net M [] true (0, net.marked M) := by
  constructor <;> simp [Network.fresh]

theorem Counted.append {ys zs : List ℕ} {k1 k2 : Bool} {r1 r2 : ℕ × Heads} (h1 : Counted net M ys k1 r1)
    (h2 : Counted net (M ∪ ys.toFinset) zs k2 r2) : Counted net M (ys ++ zs) (k1 && k2) (r1.1 + r2.1, r2.2) where
  heads := by rw [h2.heads, toFinset_append, Finset.union_assoc]
  le := by
    rw [net.card_fresh_append]
    exact Nat.add_le_add h1.le h2.le
  eq_iff := by
    have := h1.le
    have := h2.le
    rw [net.card_fresh_append, Bool.and_eq_true, ← h1.eq_iff, ← h2.eq_iff]
    constructor
    · intro h
      constructor <;> omega
    · exact fun h => by simp only [h.1, h.2]

theorem countArgs_eq (count : ℕ) (ins : Heads) (args : List SlotTerm) :
    countArgs net count ins args = args.dropLast.foldl (addCount (countTerm net 0)) (count, ins) := by
  induction args generalizing count ins with
  | nil => rfl
  | cons t ts ih =>
    cases ts with
    | nil => rfl
    | cons u us => rw [countArgs, if_neg (by simp), ih]; rfl

theorem metArgs_eq (args : List SlotTerm) : SlotTerm.metArgs args = args.dropLast.flatMap SlotTerm.met := by
  induction args with
  | nil => rfl
  | cons t ts ih =>
    cases ts with
    | nil => rfl
    | cons u us => rw [SlotTerm.metArgs, if_neg (by simp), ih]; rfl

section
variable {walk : Heads → ι → ℕ × Heads} {met : ι → List ℕ} {keep : Finset ℕ → ι → Bool} {is : List ι}
  (h : ∀ i ∈ is, ∀ M, Counted net M (met i) (keep M i) (walk (net.marked M) i))
include h

theorem foldl_addCount (n : ℕ) (M : Finset ℕ) : ∃ r, is.foldl (addCount walk) (n, net.marked M) = (n + r.1, r.2) ∧
      Counted net M (is.flatMap met) (Network.keepsAll met keep M is) r := by
  induction is generalizing n M with
  | nil => exact ⟨(0, net.marked M), rfl, Counted.nil M⟩
  | cons i is ih =>
    have hi := h i mem_cons_self M
    obtain ⟨r, hr, hc⟩ :=
      ih (fun j hj => h j (mem_cons_of_mem _ hj)) (n + (walk (net.marked M) i).1) (M ∪ (met i).toFinset)
    refine ⟨_, ?_, hi.append hc⟩
    rw [foldl_cons, addCount, hi.heads, hr, Nat.add_assoc]

theorem foldl_addCount_zero (M : Finset ℕ) :
    Counted net M (is.flatMap met) (Network.keepsAll met keep M is) (is.foldl (addCount walk) (0, net.marked M)) := by
  obtain ⟨r, hr, hc⟩ := foldl_addCount h 0 M
  rw [hr, Nat.zero_add]
  exact hc

end

theorem countTerm_of_passes {t : SlotTerm} (h : net.passes M t) (n : ℕ) :
    countTerm net n (net.marked M) t = (n, net.marked M) := by
  cases t with
  | var y =>
    rw [countTerm, if_neg]
    rw [net.isList_marked, not_and_not_right]
    exact fun hi => (of_decide_eq_true h).resolve_left (not_not_intro hi)
  | atm => rfl
  | lst car cdr => cases h
  | str args => cases h

theorem countTerm_of_not_passes {t : SlotTerm} (h : ¬ net.passes M t) (n : ℕ) :
    countTerm net n (net.marked M) t = countTerm net 0 (net.marked M) t := by
  cases t with
  | var y =>
    have hy : ¬ (¬ net.HasIns y ∨ y ∈ M) := of_decide_eq_false (Bool.eq_false_iff.2 h)
    have hm : net.susp y ∧ isList (net.marked M y) :=
      net.isList_marked.2 ⟨not_not.1 fun hi => hy (.inl hi), fun hM => hy (.inr hM)⟩
    rw [countTerm, countTerm, if_pos hm, if_pos hm]
  | atm => cases h rfl
  | lst car cdr => rw [countTerm, countTerm]
  | str args => rw [countTerm, countTerm]

theorem fresh_of_passes {t : SlotTerm} (h : net.passes M t) : net.fresh M t.met = ∅ := by
  cases t with
  | var y =>
    apply Finset.eq_empty_of_forall_notMem
    intro z hz
    obtain ⟨hz, hi, hM⟩ := net.mem_fresh.1 hz
    obtain rfl : z = y := by simpa [SlotTerm.met] using hz
    exact (of_decide_eq_true h).elim (fun hn => hn hi) hM
  | atm => rfl
  | lst car cdr => cases h
  | str args => cases h

theorem Counted.lst {car cdr : SlotTerm}
    (h1 : Counted net M car.met (net.keeps M car) (countTerm net 0 (net.marked M) car))
    (h2 : Counted net (M ∪ car.met.toFinset) cdr.met (net.keeps (M ∪ car.met.toFinset) cdr)
      (countTerm net 0 (net.marked (M ∪ car.met.toFinset)) cdr)) :
    Counted net M (SlotTerm.lst car cdr).met (net.keeps M (.lst car cdr))
      (countTerm net 0 (net.marked M) (.lst car cdr)) := by
  have hsum := h1.append h2
  rw [countTerm, h1.heads]
  by_cases hp : net.passes (M ∪ car.met.toFinset) cdr
  · -- the count of the head is the count of the list
    rw [countTerm_of_passes hp] at hsum ⊢
    rw [Network.keeps, hp, Bool.or_true, Bool.and_true]
    exact hsum
  · -- the count of the head is lost
    rw [countTerm_of_not_passes hp, Network.keeps, Bool.eq_false_iff.2 hp, Bool.or_false]
    have h1le := h1.le
    have h2le := h2.le
    have hcard : (net.fresh M (SlotTerm.lst car cdr).met).card = _ := net.card_fresh_append M car.met cdr.met
    refine ⟨hsum.heads, by omega, ?_⟩
    rw [hcard, Bool.and_eq_true, Bool.and_eq_true, ← h1.eq_iff, ← h2.eq_iff, decide_eq_true_eq, ← Finset.card_eq_zero]
    omega

theorem countTerm_counted (t : SlotTerm) (M : Finset ℕ) :
    Counted net M t.met (net.keeps M t) (countTerm net 0 (net.marked M) t) := by
  induction t using SlotTerm.induct generalizing M with
  | var y =>
    by_cases hp : net.passes M (.var y)
    · have hy : ¬ net.HasIns y ∨ y ∈ M := of_decide_eq_true hp
      rw [countTerm_of_passes hp]
      refine ⟨?_, Nat.zero_le _, ?_⟩
      · exact (net.marked_union_of_not hy).symm
      · rw [fresh_of_passes hp]
        exact iff_of_true rfl rfl
    · have hy : ¬ (¬ net.HasIns y ∨ y ∈ M) := of_decide_eq_false (Bool.eq_false_iff.2 hp)
      obtain ⟨hi, hM⟩ : net.HasIns y ∧ y ∉ M := by tauto
      have hf : net.fresh M [y] = {y} := by
        ext z
        simp only [net.mem_fresh, mem_singleton, Finset.mem_singleton]
        exact ⟨fun h => h.1, fun h => by subst h; exact ⟨rfl, hi, hM⟩⟩
      rw [countTerm, if_pos (net.isList_marked.2 ⟨hi, hM⟩), net.marked_of_not fun h => hM h.1, SlotTerm.met]
      constructor
      · exact net.update_marked hi
      · rw [hf]; rfl
      · rw [hf]; exact iff_of_true rfl rfl
  | atm => exact Counted.nil M
  | lst car cdr ih1 ih2 => exact (ih1 M).lst (ih2 _)
  | str args ih =>
    rw [countTerm, countArgs_eq, SlotTerm.met, metArgs_eq, Network.keeps, net.keepsArgs_eq]
    exact foldl_addCount_zero (fun t ht => ih t (dropLast_subset _ ht)) M

theorem countFrame_counted (f : ℕ) (M : Finset ℕ) :
    Counted net M (net.metFrame f) (Network.keepsAll SlotTerm.met net.keeps M (net.frame f))
      (countFrame net (net.marked M) f) :=
  foldl_addCount_zero (fun t _ => countTerm_counted t) M

theorem countCs_counted (net : Network) (cs : BitVec 64) (M : Finset ℕ) :
    Counted net M ((net.elems cs).flatMap net.metFrame)
      (Network.keepsAll net.metFrame (fun M f => Network.keepsAll SlotTerm.met net.keeps M (net.frame f)) M (net.elems cs))
      (countCs net (net.marked M) cs) :=
  foldl_addCount_zero (fun f _ => countFrame_counted f) M

end Count

/-! ## The second walk -/

section Reset
variable {net : Network}

theorem resetArgs_eq (ins : Heads) (args : List SlotTerm) :
    resetArgs net ins args = args.dropLast.foldl (resetTerm net) ins := by
  induction args generalizing ins with
  | nil => rfl
  | cons t ts ih =>
    cases ts with
    | nil => rfl
    | cons u us => rw [resetArgs, if_neg (by simp), ih]; rfl

theorem foldl_reset {walk : Heads → ι → Heads} {met : ι → List ℕ} {is : List ι}
    (h : ∀ i ∈ is, ∀ M, walk (net.marked M) i = net.marked (M \ (met i).toFinset)) (M : Finset ℕ) :
    is.foldl walk (net.marked M) = net.marked (M \ (is.flatMap met).toFinset) := by
  induction is generalizing M with
  | nil => simp
  | cons i is ih =>
    rw [foldl_cons, h i mem_cons_self, ih fun j hj => h j (mem_cons_of_mem _ hj), sdiff_sdiff_left,
      flatMap_cons, toFinset_append, Finset.sup_eq_union]

theorem nilSym_ne_strTagged (w : BitVec 64) : strTagged w ≠ net.nilSym := by
  intro h
  have h2 := net.nilSym_atm
  rw [← h, strTagged_and_tagMask] at h2
  exact absurd h2 (by decide)

theorem resetTerm_marked (t : SlotTerm) (M : Finset ℕ) :
    resetTerm net (net.marked M) t = net.marked (M \ t.met.toFinset) := by
  induction t using SlotTerm.induct generalizing M with
  | var y =>
    rw [show (SlotTerm.var y).met.toFinset = {y} from rfl, ← net.update_marked_sdiff, resetTerm]
    by_cases hm : y ∈ M ∧ net.HasIns y
    · -- a mark is neither empty nor a list
      have hi : ¬ (net.marked M y = net.nilSym ∨ isList (net.marked M y)) := by
        rw [net.marked_of_mem hm.1 hm.2]
        exact fun h => h.elim (nilSym_ne_strTagged _) (not_isList_strTagged _)
      rw [if_pos hm.2.1, if_neg hi, net.marked_of_mem hm.1 hm.2, lstTagged_strTagged hm.2.2]
    · -- nothing to be done
      have he : net.marked M y = net.cs y .ins := net.marked_of_not hm
      have hsame : update (net.marked M) y (net.cs y .ins) = net.marked M := by
        rw [← he, update_eq_self]
      rw [hsame, he]
      split_ifs with hs hl
      · rfl
      · exact absurd (net.cs_list y .ins hs) hl
      · rfl
  | atm => simp [resetTerm, SlotTerm.met]
  | lst car cdr ih1 ih2 =>
    rw [resetTerm, ih1, ih2, sdiff_sdiff_left, SlotTerm.met, toFinset_append, Finset.sup_eq_union]
  | str args ih =>
    rw [resetTerm, resetArgs_eq, SlotTerm.met, metArgs_eq]
    exact foldl_reset (fun t ht => ih t (dropLast_subset _ ht)) M

theorem resetFrame_marked (f : ℕ) (M : Finset ℕ) :
    resetFrame net (net.marked M) f = net.marked (M \ (net.metFrame f).toFinset) :=
  foldl_reset (fun t _ => resetTerm_marked t) M

theorem resetCs_marked (cs : BitVec 64) (M : Finset ℕ) :
    resetCs net (net.marked M) cs = net.marked (M \ ((net.elems cs).flatMap net.metFrame).toFinset) :=
  foldl_reset (fun f _ => resetFrame_marked f) M

end Reset

/-! ## The degree, and when it is right -/

namespace SlotTerm

theorem met_subset_vars (t : SlotTerm) : t.met ⊆ t.vars := by
  induction t using induct with
  | var y => exact List.Subset.refl _
  | atm => exact List.Subset.refl _
  | lst car cdr ih1 ih2 =>
    apply append_subset.2
    exact ⟨subset_append_of_subset_left _ ih1, subset_append_of_subset_right _ ih2⟩
  | str args ih =>
    intro y hy
    rw [met, metArgs_eq] at hy
    obtain ⟨t, ht, hy⟩ := mem_flatMap.1 hy
    have ht := dropLast_subset _ ht
    exact mem_varsArgs.2 ⟨t, ht, ih t ht hy⟩

end SlotTerm

section Degree
variable {net : Network} {x : ℕ}

theorem frames_of_isList {k : EventKind} (h : isList (net.cs x k)) : net.frames x k = net.elems (net.cs x k) := if_pos h

/-- The heads of the lists are as they were, and the variables on the `ins` list are counted. -/
theorem cFdDegree_counted (h : net.susp x) :
    ∃ n, cFdDegree net (fun y => net.cs y .ins) x = some (n, fun y => net.cs y .ins) ∧
      n ≤ (net.fresh {x} ((net.frames x .ins).flatMap net.metFrame)).card ∧
      (n = (net.fresh {x} ((net.frames x .ins).flatMap net.metFrame)).card ↔ net.Keeps x) := by
  rw [cFdDegree, if_pos h]
  by_cases hl : isList (net.cs x .ins)
  · have hx : net.HasIns x := ⟨h, hl⟩
    have hmark : update (fun y => net.cs y .ins) x (strTagged (net.cs x .ins)) = net.marked {x} := by
      rw [← net.marked_empty, net.update_marked hx, Finset.empty_union]
    have hc := countCs_counted net (net.cs x .ins) {x}
    rw [Network.Keeps, frames_of_isList hl]
    refine ⟨_, ?_, hc.le, hc.eq_iff⟩
    have hsdiff (R : Finset ℕ) : (({x} ∪ R) \ {x}) \ R = ∅ := by
      ext y
      simp only [Finset.mem_sdiff, Finset.mem_union, Finset.notMem_empty]
      tauto
    simp only
    rw [if_pos hl, hmark, hc.heads, net.update_marked_sdiff, resetCs_marked, hsdiff, net.marked_empty]
  · have hf : net.frames x .ins = [] := if_neg hl
    rw [Network.Keeps, hf]
    exact ⟨0, if_neg hl, Nat.zero_le _, iff_of_true rfl rfl⟩

theorem fresh_subset_connected (net : Network) (x : ℕ) :
    net.fresh {x} ((net.frames x .ins).flatMap net.metFrame) ⊆ net.connected x := by
  intro y hy
  obtain ⟨hm, hi, hx⟩ := net.mem_fresh.1 hy
  obtain ⟨f, hf, hy⟩ := mem_flatMap.1 hm
  obtain ⟨t, ht, hy⟩ := mem_flatMap.1 hy
  apply Finset.mem_erase.2
  refine ⟨fun h => hx (Finset.mem_singleton.2 h), mem_toFinset.2 (mem_flatMap.2 ⟨.ins, by simp, ?_⟩)⟩
  exact mem_flatMap.2 ⟨f, hf, mem_flatMap.2 ⟨t, ht, t.met_subset_vars hy⟩⟩

theorem fresh_eq_connected_iff :
    net.fresh {x} ((net.frames x .ins).flatMap net.metFrame) = net.connected x ↔ net.Finds x := by
  constructor
  · intro h y hy
    rw [← h, net.mem_fresh] at hy
    exact ⟨hy.2.1, hy.1⟩
  · intro h
    apply Finset.Subset.antisymm (fresh_subset_connected net x)
    intro y hy
    have hx : y ≠ x := Finset.ne_of_mem_erase hy
    exact net.mem_fresh.2 ⟨(h y hy).2, (h y hy).1, fun hm => hx (Finset.mem_singleton.1 hm)⟩

/-- The degree is the number of the other variables that have a propagator in common with the variable, and every list is
as it was, exactly if the walk finds them all and overwrites no count. -/
theorem cFdDegree_iff (net : Network) (x : ℕ) (h : net.susp x) :
    cFdDegree net (fun y => net.cs y .ins) x = some ((net.connected x).card, fun y => net.cs y .ins) ↔
      net.Finds x ∧ net.Keeps x := by
  obtain ⟨n, hn, hle, hiff⟩ := cFdDegree_counted h
  have hcard := Finset.card_le_card (fresh_subset_connected net x)
  rw [hn, Option.some_inj, Prod.mk.injEq, ← fresh_eq_connected_iff, ← hiff]
  constructor
  · intro he
    have hc : (net.fresh {x} ((net.frames x .ins).flatMap net.metFrame)).card = (net.connected x).card :=
      le_antisymm hcard (he.1 ▸ hle)
    exact ⟨Finset.eq_of_subset_of_card_le (fresh_subset_connected net x) hc.ge, he.1.trans hc.symm⟩
  · intro he
    exact ⟨by rw [he.2, he.1], rfl⟩

/-- The network of one frame, which is on the `ins` list of every variable. -/
def oneFrame (args : List SlotTerm) : Network where
  nilSym := 0x1002
  nilSym_atm := by decide
  susp _ := true
  cs _ k := if k = .ins then 0x2003 else 0x1002
  cs_list _ k _ := by cases k <;> decide
  elems _ := [0]
  frame _ := args

/-- Of two variables in a list only the last one is counted. -/
theorem cFdDegree_list : ¬ ∀ (net : Network) (x : ℕ), net.susp x →
      cFdDegree net (fun y => net.cs y .ins) x = some ((net.connected x).card, fun y => net.cs y .ins) := by
  intro h
  have h := congrArg (Option.map Prod.fst) (h (oneFrame [.var 0, .lst (.var 1) (.lst (.var 2) .atm)]) 0 rfl)
  exact absurd h (by decide)

theorem cFdDegree_iff_three :
    cFdDegree (oneFrame [.var 0, .var 1, .var 2, .lst (.var 1) .atm]) (fun _ => 0x2003) 0 = some (2, fun _ => 0x2003) :=
  (cFdDegree_iff (oneFrame [.var 0, .var 1, .var 2, .lst (.var 1) .atm]) 0 rfl).2
    ⟨by decide, by decide⟩

end Degree

end Degree

end Picat
