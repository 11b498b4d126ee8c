import Mathlib.Data.List.Basic
import Mathlib.Data.Option.Basic
import Mathlib.Data.List.Perm.Subperm
import Mathlib.Data.List.TakeWhile
import Picat.Lib.Loops

/-!
# Singly linked lists in a memory of links

A list lives in a memory `next : α → Option α`: every slot holds a link, which is empty or the address of a node, and
the node at `a` keeps its own link in the slot `slot a`.

* `Seg` : a stretch of a list, and `advance` : a walk along it.
-/

namespace Chains

open Function List

variable {α : Type*} (slot : α → α)

/-- The nodes reached from the link `l`, in order. -/
def Chain (next : α → Option α) : Option α → List α → Prop
  | l, [] => l = none
  | l, a :: as => l = some a ∧ Chain next (next (slot a)) as

variable {slot} {next : α → Option α} {l : Option α} {p : α} {as bs : List α}

@[simp] theorem chain_nil : Chain slot next l [] ↔ l = none := Iff.rfl

@[simp] theorem chain_cons {a : α} : Chain slot next l (a :: as) ↔ l = some a ∧ Chain slot next (next (slot a)) as :=
  Iff.rfl

theorem Chain.eq (h : Chain slot next l as) (h' : Chain slot next l bs) : as = bs := by
  induction as generalizing l bs with
  | nil =>
    cases bs with
    | nil => rfl
    | cons b bs => rw [chain_nil] at h; rw [chain_cons, h] at h'; exact absurd h'.1 (by simp)
  | cons a as ih =>
    cases bs with
    | nil => rw [chain_nil] at h'; rw [chain_cons, h'] at h; exact absurd h.1 (by simp)
    | cons b bs =>
      rw [chain_cons] at h h'
      obtain rfl : a = b := Option.some.inj (h.1.symm.trans h'.1)
      rw [ih h.2 h'.2]

theorem Chain.of_append {a : α} (h : Chain slot next l (as ++ a :: bs)) :
    Chain slot next (some a) (a :: bs) ∧ Chain slot next (next (slot a)) bs := by
  induction as generalizing l with
  | nil => exact ⟨⟨rfl, h.2⟩, h.2⟩
  | cons c as ih => exact ih h.2

theorem Chain.slot_ne (h : Chain slot next (next p) as) : ∀ a ∈ as, slot a ≠ p := by
  intro a ha hp
  obtain ⟨before, rest, rfl⟩ := append_of_mem ha
  have hrest : Chain slot next (next p) rest := hp ▸ h.of_append.2
  have := congrArg List.length (h.eq hrest)
  rw [length_append, length_cons] at this
  omega

section Update
variable [DecidableEq α] {q : α} {m : Option α}

theorem Chain.update (h : Chain slot next l as) (hq : ∀ a ∈ as, slot a ≠ q) : Chain slot (update next q m) l as := by
  induction as generalizing l with
  | nil => exact h
  | cons a as ih =>
    refine ⟨h.1, ?_⟩
    rw [update_of_ne (hq a (mem_cons_self ..))]
    exact ih h.2 fun b hb => hq b (mem_cons_of_mem _ hb)

theorem Chain.skip {cut rest : List α} (h : Chain slot next (next q) (cut ++ rest)) (hm : Chain slot next m rest) :
    Chain slot (Function.update next q m) (Function.update next q m q) rest := by
  rw [update_self]
  exact hm.update fun a ha => h.slot_ne a (mem_append_right _ ha)

theorem Chain.unlink {cut rest : List α} {a : α} (h : Chain slot next l (as ++ a :: (cut ++ rest))) (hq : slot a = q)
    (hm : Chain slot next m rest) : Chain slot (Function.update next q m) l (as ++ a :: rest) := by
  have hcut : Chain slot next (next q) (cut ++ rest) := hq ▸ h.of_append.2
  induction as generalizing l with
  | nil => exact ⟨h.1, hq ▸ hcut.skip hm⟩
  | cons c as ih =>
    refine ⟨h.1, ?_⟩
    rw [update_of_ne]
    · exact ih h.2
    · intro hc
      -- the slot of `c` would start both this list and its own tail
      have hlong : Chain slot next (next q) (as ++ a :: (cut ++ rest)) := hc ▸ h.2
      have := congrArg List.length (hlong.eq hcut)
      rw [length_append, length_cons] at this
      omega

theorem Chain.unlink_filter (keep : α → Bool) {cut rest : List α} (hcut : Chain slot next (next q) (cut ++ rest))
    (hm : Chain slot next m rest) (hkeep : ∀ a ∈ cut, keep a = false) (h : Chain slot next l as) :
    ∃ as', Chain slot (Function.update next q m) l as' ∧ as'.Sublist as ∧ as'.filter keep = as.filter keep := by
  by_cases hq : ∃ a ∈ as, slot a = q
  · obtain ⟨a, ha, hq⟩ := hq
    obtain ⟨before, after, rfl⟩ := append_of_mem ha
    obtain rfl : after = cut ++ rest := (hq ▸ h.of_append.2).eq hcut
    refine ⟨_, h.unlink hq hm, (sublist_append_right cut rest).cons_cons a |>.append_left before, ?_⟩
    have hnone : cut.filter keep = [] := filter_eq_nil_iff.2 fun c hc => by simp [hkeep c hc]
    simp only [filter_append, filter_cons, hnone, nil_append]
  · exact ⟨as, h.update fun a ha hqa => hq ⟨a, ha, hqa⟩, List.Sublist.refl _, rfl⟩

end Update

/-- The list in every slot is still there in `next'`, with some of the nodes that `keep` rejects cut out. -/
def KeepsNodes (slot : α → α) (keep : α → Bool) (next next' : α → Option α) : Prop :=
  ∀ p as, Chain slot next (next p) as →
    ∃ as', Chain slot next' (next' p) as' ∧ as'.Sublist as ∧ as'.filter keep = as.filter keep

variable {keep : α → Bool} {next' next'' : α → Option α}

theorem KeepsNodes.refl : KeepsNodes slot keep next next := fun _ as h => ⟨as, h, List.Sublist.refl _, rfl⟩

theorem KeepsNodes.trans (h : KeepsNodes slot keep next next') (h' : KeepsNodes slot keep next' next'') :
    KeepsNodes slot keep next next'' := by
  intro p as has
  obtain ⟨as', has', hsub, hfilter⟩ := h p as has
  obtain ⟨as'', has'', hsub', hfilter'⟩ := h' p as' has'
  exact ⟨as'', has'', hsub'.trans hsub, hfilter'.trans hfilter⟩

theorem KeepsNodes.of_forall (h : KeepsNodes slot keep next next') (has : Chain slot next (next p) as)
    (hall : ∀ a ∈ as, keep a = true) : Chain slot next' (next' p) as := by
  obtain ⟨as', has', hsub, hfilter⟩ := h p as has
  rw [filter_eq_self.2 hall] at hfilter
  have hle : as.length ≤ as'.length := hfilter ▸ length_filter_le _ _
  rwa [hsub.eq_of_length_le hle] at has'

theorem keepsNodes_update [DecidableEq α] {q : α} {m : Option α} {cut rest : List α}
    (hcut : Chain slot next (next q) (cut ++ rest)) (hm : Chain slot next m rest) (hkeep : ∀ a ∈ cut, keep a = false) :
    KeepsNodes slot keep next (update next q m) := by
  intro p as has
  by_cases hp : p = q
  · subst p
    obtain rfl := has.eq hcut
    refine ⟨rest, hcut.skip hm, sublist_append_right cut rest, ?_⟩
    have hnone : cut.filter keep = [] := filter_eq_nil_iff.2 fun c hc => by simp [hkeep c hc]
    rw [filter_append, hnone, nil_append]
  · rw [update_of_ne hp]
    exact Chain.unlink_filter keep hcut hm hkeep has

/-! ## Segments -/

section Segments
variable {k m : Option α} {a q : α}

/-- From the link `l` over the nodes `as` to the link `m`; a node holds its own link. -/
def Seg (next : α → Option α) : Option α → List α → Option α → Prop
  | l, [], m => l = m
  | l, a :: as, m => l = some a ∧ Seg next (next a) as m

theorem seg_none_iff : Seg next l as none ↔ Chain id next l as := by
  induction as generalizing l with
  | nil => exact Iff.rfl
  | cons a as ih => exact and_congr_right fun _ => ih

theorem seg_append : Seg next l (as ++ bs) m ↔ ∃ k, Seg next l as k ∧ Seg next k bs m := by
  induction as generalizing l with
  | nil => exact ⟨fun h => ⟨l, rfl, h⟩, fun ⟨_, hl, h⟩ => hl ▸ h⟩
  | cons a as ih =>
    refine ⟨fun ⟨hl, h⟩ => ?_, fun ⟨k, ⟨hl, h⟩, h'⟩ => ⟨hl, ih.2 ⟨k, h, h'⟩⟩⟩
    obtain ⟨k, h, h'⟩ := ih.1 h
    exact ⟨k, ⟨hl, h⟩, h'⟩

theorem seg_concat : Seg next l (as ++ [a]) m ↔ Seg next l as (some a) ∧ next a = m := by
  rw [seg_append]
  exact ⟨fun ⟨_, h, hk, hm⟩ => ⟨hk ▸ h, hm⟩, fun ⟨h, hm⟩ => ⟨_, h, rfl, hm⟩⟩

theorem Seg.congr (h : Seg next l as m) (heq : ∀ a ∈ as, next' a = next a) : Seg next' l as m := by
  induction as generalizing l with
  | nil => exact h
  | cons a as ih =>
    rw [forall_mem_cons] at heq
    exact ⟨h.1, heq.1 ▸ ih h.2 heq.2⟩

theorem Seg.update [DecidableEq α] (h : Seg next l as m) (hq : q ∉ as) : Seg (update next q k) l as m :=
  h.congr fun _ ha => update_of_ne (ne_of_mem_of_not_mem ha hq) ..

/-- `do p := a; a := next a while (go a)`: the last node that it leaves behind, and the link where it stops. -/
def advance (go : α → Bool) (next : α → Option α) : ℕ → α → Option (α × Option α)
  | 0, _ => none
  | fuel + 1, p =>
    match next p with
    | none => some (p, none)
    | some a => if go a then advance go next fuel a else some (p, some a)

theorem advance_eq {go : α → Bool} {fuel : ℕ} (h : Seg next (next p) as m) (hgo : ∀ a ∈ as, go a = true)
    (hstop : ∀ a, m = some a → go a = false) (hfuel : as.length < fuel) :
    advance go next fuel p = some ((p :: as).getLast (cons_ne_nil p as), m) := by
  induction as generalizing p fuel with
  | nil =>
    cases fuel with
    | zero => cases hfuel
    | succ fuel =>
      rw [advance, show next p = m from h]
      cases m with
      | none => rfl
      | some a => simp [hstop a rfl]
  | cons a as ih =>
    rw [forall_mem_cons] at hgo
    cases fuel with
    | zero => cases hfuel
    | succ fuel =>
      rw [advance, h.1]
      simp only [hgo.1, if_true]
      rw [ih h.2 hgo.2 (Nat.lt_of_succ_lt_succ hfuel), getLast_cons (cons_ne_nil a as)]

theorem seg_head? (h : Seg next l as none) : l = as.head? := by
  cases as with
  | nil => exact h
  | cons a as => exact h.1

theorem advance_takeWhile (go : α → Bool) {fuel : ℕ} {rest : List α} (h : Seg next (some a) (a :: rest) none)
    (hfuel : rest.length < fuel) :
    ∃ init p, a :: rest.takeWhile go = init ++ [p] ∧ advance go next fuel a = some (p, (rest.dropWhile go).head?) ∧
      Seg next (some a) init (some p) ∧ next p = (rest.dropWhile go).head? ∧
      Seg next (rest.dropWhile go).head? (rest.dropWhile go) none := by
  have hcut := h
  rw [← takeWhile_append_dropWhile (p := go) (l := rest), ← cons_append, seg_append] at hcut
  obtain ⟨k, hpre, hpost⟩ := hcut
  obtain rfl := seg_head? hpost
  obtain ⟨init, p, hinit⟩ : ∃ init p, a :: rest.takeWhile go = init ++ [p] :=
    ⟨_, _, (dropLast_append_getLast (cons_ne_nil a _)).symm⟩
  have hadvance : advance go next fuel a = some (p, (rest.dropWhile go).head?) := by
    rw [advance_eq hpre.2 (fun b hb => all_eq_true.1 all_takeWhile b hb) (fun b hb => ?_)
      (Nat.lt_of_le_of_lt (takeWhile_sublist go).length_le hfuel)]
    · have hlast : (a :: rest.takeWhile go).getLast (cons_ne_nil a _) = p := by simp [hinit]
      rw [hlast]
    · have := List.head?_dropWhile_not go rest
      rwa [hb] at this
  rw [hinit, seg_concat] at hpre
  exact ⟨init, p, hinit, hadvance, hpre.1, hpre.2, hpost⟩

end Segments

end Chains

/-! # Chained hash tables -/

namespace Chains

open Function List

variable {α : Type*}

structure Buckets (α : Type*) where
  size : ℕ
  head : ℕ → Option α
  next : α → Option α

inductive Link (α : Type*)
  | head (i : ℕ)
  | node (a : α)

/-- The first node along a chain that `p` accepts; `p` may fail, and so does a walk longer than `fuel`. -/
def search (p : α → Option Bool) (next : α → Option α) : ℕ → Option α → Option (Option α)
  | _, none => some none
  | 0, some _ => none
  | fuel + 1, some a =>
    match p a with
    | none => none
    | some true => some (some a)
    | some false => search p next fuel (next a)

/-- The nodes along a chain, as many as `fuel` allows. -/
def chainNodes (next : α → Option α) : ℕ → Option α → List α
  | fuel + 1, some a => a :: chainNodes next fuel (next a)
  | _, _ => []

namespace Buckets

def follow (t : Buckets α) : Link α → Option α
  | .head i => t.head i
  | .node a => t.next a

variable [DecidableEq α]

def write (t : Buckets α) (p : Link α) (l : Option α) : Buckets α :=
  match p with
  | .head i => { t with head := update t.head i l }
  | .node a => { t with next := update t.next a l }

def push (t : Buckets α) (i : ℕ) (a : α) : Buckets α :=
  { t with next := update t.next a (t.head i), head := update t.head i (some a) }

/-- The place that holds the link to `a`, from the place `p` on. -/
def findLink (t : Buckets α) (a : α) : ℕ → Link α → Option (Link α)
  | 0, _ => none
  | fuel + 1, p =>
    match t.follow p with
    | none => none
    | some b => if b = a then some p else findLink t a fuel (.node b)

/-- Moves the nodes of a chain to their buckets, one after the other. -/
def moveChain (hash : α → ℕ) : ℕ → Option α → Buckets α → Option (Buckets α)
  | _, none, t => some t
  | 0, some _, _ => none
  | fuel + 1, some a, t => moveChain hash fuel (t.next a) (t.push (hash a % t.size) a)

def rehash (hash : α → ℕ) (size fuel : ℕ) (t : Buckets α) : Option (Buckets α) :=
  (List.range t.size).foldlM (fun s i => moveChain hash fuel (t.head i) s) ⟨size, fun _ => none, t.next⟩

/-! ## What a table holds -/

/-- Every bucket is a chain of those nodes whose hash codes belong there. -/
structure Holds (hash : α → ℕ) (nodes : List α) (t : Buckets α) : Prop where
  size_pos : 0 < t.size
  chain : ∀ i < t.size, ∃ l, Chain id t.next (t.head i) l ∧ ∀ a, a ∈ l ↔ a ∈ nodes ∧ hash a % t.size = i

end Buckets

variable {next : α → Option α} {l : Option α} {as : List α}

theorem Chain.nodup (h : Chain id next l as) : as.Nodup := by
  induction as generalizing l with
  | nil => exact nodup_nil
  | cons a as ih => exact nodup_cons.2 ⟨fun ha => h.2.slot_ne a ha rfl, ih h.2⟩

theorem Chain.congr_next {next' : α → Option α} (h : Chain id next l as) (heq : ∀ a ∈ as, next a = next' a) :
    Chain id next' l as := by
  induction as generalizing l with
  | nil => exact h
  | cons a as ih =>
    rw [forall_mem_cons] at heq
    exact ⟨h.1, heq.1 ▸ ih h.2 heq.2⟩

variable {fuel : ℕ}

theorem chainNodes_eq {fuel : ℕ} (h : Chain id next l as) (hfuel : as.length ≤ fuel) : chainNodes next fuel l = as := by
  induction as generalizing l fuel with
  | nil =>
    rw [chain_nil.1 h]
    cases fuel <;> rfl
  | cons a as ih =>
    obtain ⟨rfl, has⟩ := h
    cases fuel with
    | zero => simp at hfuel
    | succ fuel => exact congrArg (List.cons a) (ih has (Nat.le_of_succ_le_succ hfuel))

theorem search_eq {p : α → Option Bool} {q : α → Bool} (h : Chain id next l as) (hfuel : as.length ≤ fuel)
    (hp : ∀ a ∈ as.takeWhile fun a => !q a, p a = some false) (hq : ∀ a ∈ as, q a = true → p a = some true) :
    search p next fuel l = some (as.find? q) := by
  induction as generalizing l fuel with
  | nil =>
    rw [chain_nil.1 h]
    cases fuel <;> rfl
  | cons a as ih =>
    obtain ⟨rfl, has⟩ := h
    rw [forall_mem_cons] at hq
    cases fuel with
    | zero => simp at hfuel
    | succ fuel =>
      rw [search, List.find?_cons]
      cases hqa : q a with
      | true => rw [hq.1 hqa]
      | false =>
        rw [takeWhile_cons_of_pos (by rw [hqa]; rfl), forall_mem_cons] at hp
        rw [hp.1]
        exact ih has (Nat.le_of_succ_le_succ hfuel) hp.2 hq.2

theorem search_some {p : α → Option Bool} {a : α} (h : search p next fuel l = some (some a)) :
    a ∈ chainNodes next fuel l ∧ p a = some true := by
  induction fuel generalizing l with
  | zero => cases l <;> cases h
  | succ fuel ih =>
    cases l with
    | none => cases h
    | some b =>
      rw [search] at h
      cases hb : p b with
      | none =>
        rw [hb] at h
        cases h
      | some r =>
        rw [hb] at h
        cases r with
        | true =>
          obtain rfl : b = a := Option.some.inj (Option.some.inj h)
          exact ⟨mem_cons_self, hb⟩
        | false =>
          obtain ⟨hmem, ha⟩ := ih h
          exact ⟨mem_cons_of_mem b hmem, ha⟩

namespace Buckets

variable {hash : α → ℕ} {nodes : List α} {t : Buckets α} {a : α}

theorem holds_empty {size : ℕ} (hsize : 0 < size) (next : α → Option α) : Holds hash [] ⟨size, fun _ => none, next⟩ :=
  ⟨hsize, fun _ _ => ⟨[], rfl, fun _ => by simp⟩⟩

theorem Holds.congr {nodes' : List α} (h : Holds hash nodes t) (hmem : ∀ a, a ∈ nodes' ↔ a ∈ nodes) :
    Holds hash nodes' t := by
  refine ⟨h.size_pos, fun i hi => ?_⟩
  obtain ⟨l, hl, hmeml⟩ := h.chain i hi
  exact ⟨l, hl, fun a => by rw [hmeml, hmem]⟩

theorem Holds.congr_hash {hash' : α → ℕ} (h : Holds hash nodes t) (heq : ∀ a ∈ nodes, hash' a = hash a) :
    Holds hash' nodes t := by
  refine ⟨h.size_pos, fun i hi => ?_⟩
  obtain ⟨l, hl, hmeml⟩ := h.chain i hi
  refine ⟨l, hl, fun a => (hmeml a).trans (and_congr_right fun ha => ?_)⟩
  rw [heq a ha]

theorem Holds.bucket (h : Holds hash nodes t) (hcode : ℕ) : ∃ l, Chain id t.next (t.head (hcode % t.size)) l ∧
    (∀ a, a ∈ l ↔ a ∈ nodes ∧ hash a % t.size = hcode % t.size) ∧ l.length ≤ nodes.length := by
  obtain ⟨l, hl, hmem⟩ := h.chain _ (Nat.mod_lt hcode h.size_pos)
  exact ⟨l, hl, hmem, (hl.nodup.subperm fun a ha => ((hmem a).1 ha).1).length_le⟩

theorem Holds.mem_chainNodes (h : Holds hash nodes t) (hfuel : nodes.length ≤ fuel) (hcode : ℕ) {a : α} :
    a ∈ chainNodes t.next fuel (t.head (hcode % t.size)) ↔ a ∈ nodes ∧ hash a % t.size = hcode % t.size := by
  obtain ⟨l, hl, hmem, hlen⟩ := h.bucket hcode
  rw [chainNodes_eq hl (Nat.le_trans hlen hfuel), hmem]

theorem Holds.flatMap_chainNodes (h : Holds hash nodes t) (hfuel : nodes.length ≤ fuel) :
    ((List.range t.size).flatMap fun i => chainNodes t.next fuel (t.head i)).Nodup ∧
      ∀ a, a ∈ (List.range t.size).flatMap (fun i => chainNodes t.next fuel (t.head i)) ↔ a ∈ nodes := by
  have hmem : ∀ i < t.size, ∀ a, a ∈ chainNodes t.next fuel (t.head i) ↔ a ∈ nodes ∧ hash a % t.size = i :=
    fun i hi a => by
      have := h.mem_chainNodes hfuel i (a := a)
      rwa [Nat.mod_eq_of_lt hi] at this
  refine ⟨nodup_flatMap.2 ⟨fun i hi => ?_, ?_⟩, fun a => ?_⟩
  · obtain ⟨l, hl, -, hlen⟩ := h.bucket i
    rw [Nat.mod_eq_of_lt (mem_range.1 hi)] at hl
    rw [chainNodes_eq hl (Nat.le_trans hlen hfuel)]
    exact hl.nodup
  · refine nodup_range.imp_of_mem fun hi hj hij a ha ha' => hij ?_
    exact ((hmem _ (mem_range.1 hi) a).1 ha).2.symm.trans ((hmem _ (mem_range.1 hj) a).1 ha').2
  · rw [mem_flatMap]
    refine ⟨fun ⟨i, hi, ha⟩ => ((hmem i (mem_range.1 hi) a).1 ha).1, fun ha => ?_⟩
    have hlt := Nat.mod_lt (hash a) h.size_pos
    exact ⟨_, mem_range.2 hlt, (hmem _ hlt a).2 ⟨ha, rfl⟩⟩

theorem Holds.search_eq {p : α → Option Bool} {q : α → Bool} {hcode : ℕ} (h : Holds hash nodes t)
    (hfuel : nodes.length ≤ fuel)
    (hp : ∀ a ∈ (chainNodes t.next fuel (t.head (hcode % t.size))).takeWhile fun a => !q a, p a = some false)
    (hpq : ∀ a ∈ nodes, q a = true → p a = some true) (hq : ∀ a ∈ nodes, q a = true → hash a = hcode)
    (hone : ∀ a ∈ nodes, ∀ b ∈ nodes, q a = true → q b = true → a = b) :
    search p t.next fuel (t.head (hcode % t.size)) = some (nodes.find? q) := by
  obtain ⟨l, hl, hmem, hlen⟩ := h.bucket hcode
  rw [chainNodes_eq hl (Nat.le_trans hlen hfuel)] at hp
  rw [Chains.search_eq hl (Nat.le_trans hlen hfuel) hp fun a ha => hpq a ((hmem a).1 ha).1]
  congr 1
  cases hfind : nodes.find? q with
  | none =>
    rw [List.find?_eq_none] at hfind ⊢
    exact fun a ha => hfind a ((hmem a).1 ha).1
  | some a =>
    have ha := mem_of_find?_eq_some hfind
    have hqa := List.find?_some hfind
    have hal : a ∈ l := (hmem a).2 ⟨ha, by rw [hq a ha hqa]⟩
    cases hfind' : l.find? q with
    | none => exact absurd hqa (List.find?_eq_none.1 hfind' a hal)
    | some b =>
      have hb := ((hmem b).1 (mem_of_find?_eq_some hfind')).1
      rw [hone a ha b hb hqa (List.find?_some hfind')]

variable [DecidableEq α]

theorem Holds.push (h : Holds hash nodes t) (ha : a ∉ nodes) :
    Holds hash (a :: nodes) (t.push (hash a % t.size) a) := by
  refine ⟨h.size_pos, fun i hi => ?_⟩
  obtain ⟨l, hl, hmem⟩ := h.chain i hi
  have hnot : ∀ b ∈ l, id b ≠ a := fun b hb heq => ha (heq ▸ ((hmem b).1 hb).1)
  by_cases hia : hash a % t.size = i
  · refine ⟨a :: l, ⟨?_, ?_⟩, fun b => ?_⟩
    · simp [Buckets.push, hia]
    · simpa [Buckets.push, hia] using hl.update hnot
    · rw [mem_cons, mem_cons, hmem]
      refine ⟨fun hb => ?_, fun hb => ?_⟩
      · rcases hb with rfl | hb
        · exact ⟨.inl rfl, hia⟩
        · exact ⟨.inr hb.1, hb.2⟩
      · exact hb.1.imp_right fun hb' => ⟨hb', hb.2⟩
  · refine ⟨l, ?_, fun b => ?_⟩
    · simpa [Buckets.push, update_of_ne (Ne.symm hia)] using hl.update hnot
    · rw [mem_cons, hmem]
      refine ⟨fun hb => ⟨.inr hb.1, hb.2⟩, fun ⟨hb, hbi⟩ => ?_⟩
      rcases hb with rfl | hb
      · exact absurd hbi hia
      · exact ⟨hb, hbi⟩

theorem findLink_eq {pre post : List α} {p : Link α} (h : Chain id t.next (t.follow p) (pre ++ a :: post))
    (hfuel : pre.length < fuel) (ha : a ∉ pre) :
    t.findLink a fuel p = some (match pre.getLast? with | none => p | some b => .node b) := by
  induction pre generalizing p fuel with
  | nil =>
    obtain ⟨fuel, rfl⟩ := Nat.exists_eq_add_of_lt hfuel
    rw [findLink, h.1]
    simp
  | cons b pre ih =>
    cases fuel with
    | zero => cases hfuel
    | succ fuel =>
      rw [mem_cons, not_or] at ha
      rw [findLink, h.1]
      simp only [if_neg (Ne.symm ha.1)]
      rw [ih (p := .node b) h.2 (Nat.lt_of_succ_lt_succ hfuel) ha.2]
      cases pre <;> simp [List.getLast?_cons]

theorem Holds.unlink (h : Holds hash nodes t) (ha : a ∈ nodes) (hfuel : nodes.length ≤ fuel) :
    ∃ p, t.findLink a fuel (.head (hash a % t.size)) = some p ∧
      Holds hash (nodes.filter (· ≠ a)) (t.write p (t.next a)) ∧ (t.write p (t.next a)).size = t.size := by
  obtain ⟨l, hl, hmem, hlen⟩ := h.bucket (hash a)
  obtain ⟨pre, post, rfl⟩ := append_of_mem ((hmem a).2 ⟨ha, rfl⟩)
  have hnodup := nodup_append.1 hl.nodup
  have hapre : a ∉ pre := fun hin => hnodup.2.2 a hin a (mem_cons_self ..) rfl
  have hapost : a ∉ post := (nodup_cons.1 hnodup.2.1).1
  rw [length_append, length_cons] at hlen
  refine ⟨_, findLink_eq (p := .head (hash a % t.size)) hl (by omega) hapre, ?_⟩
  have hpost : ∀ b, b ∈ pre ++ post ↔ b ∈ nodes.filter (· ≠ a) ∧ hash b % t.size = hash a % t.size := fun b => by
    have hb := hmem b
    simp only [mem_append, mem_cons, mem_filter, decide_eq_true_eq] at hb ⊢
    by_cases hba : b = a
    · subst hba
      simp [hapre, hapost]
    · simp only [hba, false_or] at hb
      rw [hb]
      simp [hba]
  have hother : ∀ i, i ≠ hash a % t.size → ∀ l' : List α, (∀ b, b ∈ l' ↔ b ∈ nodes ∧ hash b % t.size = i) →
      ∀ b, b ∈ l' ↔ b ∈ nodes.filter (· ≠ a) ∧ hash b % t.size = i := fun i hi l' hl' b => by
    rw [hl', mem_filter, decide_eq_true_eq]
    refine ⟨fun hb => ⟨⟨hb.1, fun heq => hi (heq ▸ hb.2).symm⟩, hb.2⟩, fun hb => ⟨hb.1.1, hb.2⟩⟩
  rcases eq_nil_or_concat pre with rfl | ⟨pre', b, rfl⟩
  · refine ⟨⟨h.size_pos, fun i hi => ?_⟩, rfl⟩
    by_cases hia : i = hash a % t.size
    · refine ⟨post, ?_, fun b => hia ▸ hpost b⟩
      simpa [write, hia] using hl.2
    · obtain ⟨l', hl', hmem'⟩ := h.chain i hi
      refine ⟨l', ?_, hother i hia l' hmem'⟩
      simpa [write, update_of_ne hia] using hl'
  · rw [concat_eq_append, List.getLast?_concat]
    rw [concat_eq_append] at hl hpost
    refine ⟨⟨h.size_pos, fun i hi => ?_⟩, rfl⟩
    by_cases hia : i = hash a % t.size
    · refine ⟨pre' ++ [b] ++ post, ?_, fun b => hia ▸ hpost b⟩
      rw [append_assoc, singleton_append] at hl ⊢
      subst hia
      have hcut : Chain id t.next (t.head (hash a % t.size)) (pre' ++ b :: ([a] ++ post)) := hl
      exact hcut.unlink rfl hl.of_append.2.2
    · obtain ⟨l', hl', hmem'⟩ := h.chain i hi
      refine ⟨l', hl'.update fun c hc hcb => ?_, hother i hia l' hmem'⟩
      have hb : hash b % t.size = hash a % t.size := ((hpost b).1 (by simp)).2
      have hc' := ((hmem' c).1 hc).2
      rw [show c = b from hcb] at hc'
      exact hia (hc'.symm.trans hb)

theorem moveChain_spec {fuel : ℕ} {rest done : List α} {l : Option α} (h : Holds hash done t)
    (hrest : Chain id t.next l rest) (hdone : ∀ a ∈ rest, a ∉ done) (hfuel : rest.length ≤ fuel) :
    ∃ s, moveChain hash fuel l t = some s ∧ Holds hash (rest ++ done) s ∧ s.size = t.size ∧
      ∀ b ∉ rest, s.next b = t.next b := by
  induction rest generalizing l t fuel done with
  | nil =>
    rw [chain_nil.1 hrest]
    exact ⟨t, by cases fuel <;> rfl, h, rfl, fun _ _ => rfl⟩
  | cons a rest ih =>
    obtain ⟨rfl, hchain⟩ := hrest
    cases fuel with
    | zero => simp at hfuel
    | succ fuel =>
      have hnot : a ∉ rest := fun ha => hchain.slot_ne a ha rfl
      rw [forall_mem_cons] at hdone
      have hchain' : Chain id (t.push (hash a % t.size) a).next (t.next a) rest :=
        hchain.update fun b hb heq => hnot (heq ▸ hb)
      obtain ⟨s, hs, hholds, hsize, hnext⟩ := ih (h.push hdone.1) hchain'
        (fun b hb hmem => (mem_cons.1 hmem).elim (fun heq => hnot (heq ▸ hb)) (hdone.2 b hb))
        (Nat.le_of_succ_le_succ hfuel)
      refine ⟨s, hs, hholds.congr fun b => ?_, hsize, fun b hb => ?_⟩
      · simp only [mem_cons, mem_append, cons_append]
        tauto
      · rw [mem_cons, not_or] at hb
        rw [hnext b hb.2]
        exact update_of_ne hb.1 ..

theorem Holds.rehash {size fuel : ℕ} (h : Holds hash nodes t) (hsize : 0 < size) (hfuel : nodes.length ≤ fuel) :
    ∃ s, t.rehash hash size fuel = some s ∧ s.size = size ∧ Holds hash nodes s := by
  -- after `i` buckets: their nodes are in the new ones, and the links of all others are as they were
  obtain ⟨s, hs, hsize', hholds, -⟩ := Loops.exists_foldlM_range (m := Option)
    (fun s i => moveChain hash fuel (t.head i) s)
    (fun i s => s.size = size ∧ Holds hash (nodes.filter fun a => hash a % t.size < i) s ∧
      ∀ a, i ≤ hash a % t.size → s.next a = t.next a)
    t.size ⟨size, fun _ => none, t.next⟩
    ⟨rfl, by simpa using holds_empty hsize t.next, fun _ _ => rfl⟩
    fun i hi s ⟨hs, hholds, hnext⟩ => by
      obtain ⟨l, hl, hmem⟩ := h.chain i hi
      have hchain : Chain id s.next (t.head i) l := by
        apply hl.congr_next
        intro a ha
        exact (hnext a (Nat.le_of_eq ((hmem a).1 ha).2.symm)).symm
      obtain ⟨s', hs', hholds', hsize', hnext'⟩ :=
        @moveChain_spec α hash s _ fuel _ _ _ hholds hchain
          (fun a ha hdone => by
            have hlt := (mem_filter.1 hdone).2
            rw [((hmem a).1 ha).2] at hlt
            simp at hlt)
          (Nat.le_trans (hl.nodup.subperm fun a ha => ((hmem a).1 ha).1).length_le hfuel)
      refine ⟨s', hs', hsize'.trans hs, hholds'.congr fun a => ?_, fun a ha => ?_⟩
      · rw [mem_append, hmem, mem_filter, mem_filter, decide_eq_true_eq, decide_eq_true_eq, Nat.lt_succ_iff_lt_or_eq]
        tauto
      · rw [hnext' a fun hal => ?_, hnext a (Nat.le_of_succ_le ha)]
        rw [((hmem a).1 hal).2] at ha
        exact absurd ha (Nat.not_succ_le_self i)
  exact ⟨s, hs, hsize', hholds.congr fun a =>
    ⟨fun ha => mem_filter.2 ⟨ha, decide_eq_true (Nat.mod_lt _ h.size_pos)⟩, fun ha => (mem_filter.1 ha).1⟩⟩

end Buckets

end Chains

/-! # Tables of pairs -/

namespace Chains

open Function List

variable {K V C : Type*}

/-- The pairs are in the nodes below `top`, and all of them in the table. -/
structure PairTable (K V : Type*) where
  key : ℕ → K
  val : ℕ → V
  chains : Buckets ℕ
  count : ℕ
  top : ℕ

namespace PairTable

/-- The first node in the bucket of a hash code whose key is accepted. -/
def lookup (m : PairTable K V) (hcode : ℕ) (accepts : K → Bool) : Option (Option ℕ) :=
  search (fun a => some (accepts (m.key a))) m.chains.next m.top (m.chains.head (hcode % m.chains.size))

def push (m : PairTable K V) (hcode : ℕ) (k : K) (v : V) : PairTable K V where
  key := update m.key m.top k
  val := update m.val m.top v
  chains := m.chains.push (hcode % m.chains.size) m.top
  count := m.count + 1
  top := m.top + 1

/-- Another value in the node `a`. -/
def replace (m : PairTable K V) (a : ℕ) (v : V) : PairTable K V := { m with val := update m.val a v }

def expand (m : PairTable K V) (hash : K → ℕ) (size : ℕ) : Option (PairTable K V) :=
  (m.chains.rehash (fun a => hash (m.key a)) size m.top).map fun chains => { m with chains := chains }

def expandIf (m : PairTable K V) (full : Bool) (hash : K → ℕ) (size : ℕ) : Option (PairTable K V) :=
  if full then m.expand hash size else some m

def nodes (m : PairTable K V) : List ℕ :=
  (List.range m.chains.size).flatMap fun i => chainNodes m.chains.next m.top (m.chains.head i)

def pairs (m : PairTable K V) : List (K × V) := m.nodes.map fun a => (m.key a, m.val a)

/-- The table holds the pairs that `f` gives to the classes of keys. -/
structure Stores (hash : K → ℕ) (cls : K → C) (f : C → Option (K × V)) (m : PairTable K V) : Prop where
  holds : m.chains.Holds (fun a => hash (m.key a)) (List.range m.top)
  apply_eq : ∀ a < m.top, f (cls (m.key a)) = some (m.key a, m.val a)
  eq_of_cls : ∀ a < m.top, ∀ b < m.top, cls (m.key a) = cls (m.key b) → a = b
  exists_node : ∀ c p, f c = some p → ∃ a < m.top, cls (m.key a) = c
  count_eq : m.count = m.top

variable {hash : K → ℕ} {cls : K → C} {f : C → Option (K × V)} {m : PairTable K V}

theorem stores_empty {size : ℕ} (hsize : 0 < size) (key : ℕ → K) (val : ℕ → V) (next : ℕ → Option ℕ) :
    Stores hash cls (fun _ => none) (⟨key, val, ⟨size, fun _ => none, next⟩, 0, 0⟩ : PairTable K V) where
  holds := Buckets.holds_empty hsize _
  apply_eq _ h := absurd h (Nat.not_lt_zero _)
  eq_of_cls _ h := absurd h (Nat.not_lt_zero _)
  exists_node _ _ h := by cases h
  count_eq := rfl

theorem Stores.lookup_find (h : m.Stores hash cls f) {hcode : ℕ} {accepts : K → Bool}
    (hhash : ∀ a < m.top, accepts (m.key a) = true → hash (m.key a) = hcode)
    (hone : ∀ a < m.top, ∀ b < m.top, accepts (m.key a) = true → accepts (m.key b) = true → a = b) :
    m.lookup hcode accepts = some ((List.range m.top).find? fun a => accepts (m.key a)) := by
  refine h.holds.search_eq (Nat.le_of_eq length_range) (fun a ha => ?_) (fun a _ heq => by rw [heq])
    (fun a ha => hhash a (mem_range.1 ha)) fun a ha b hb => hone a (mem_range.1 ha) b (mem_range.1 hb)
  have hne : (!accepts (m.key a)) = true := mem_takeWhile_imp (p := fun a => !accepts (m.key a)) ha
  rw [Bool.not_eq_true'] at hne
  rw [hne]

theorem Stores.lookup_none (h : m.Stores hash cls f) (hcode : ℕ) (accepts : K → Bool)
    (hno : ∀ a < m.top, accepts (m.key a) = false) : m.lookup hcode accepts = some none := by
  have hnot : ∀ a < m.top, ¬accepts (m.key a) = true := fun a ha => by
    rw [hno a ha]
    exact Bool.false_ne_true
  rw [h.lookup_find (fun a ha hacc => absurd hacc (hnot a ha)) fun a ha _ _ hacc _ => absurd hacc (hnot a ha),
    List.find?_eq_none.2 fun a ha => hnot a (mem_range.1 ha)]

theorem Stores.lookup_eq (h : m.Stores hash cls f) (hcode : ℕ) (accepts : K → Bool) (c : C)
    (haccepts : ∀ a < m.top, accepts (m.key a) = true ↔ cls (m.key a) = c)
    (hhash : ∀ a < m.top, cls (m.key a) = c → hash (m.key a) = hcode) :
    (m.lookup hcode accepts = some none ∧ f c = none) ∨
      ∃ a < m.top, m.lookup hcode accepts = some (some a) ∧ cls (m.key a) = c ∧ f c = some (m.key a, m.val a) := by
  rw [h.lookup_find (fun a ha heq => hhash a ha ((haccepts a ha).1 heq)) fun a ha b hb heq heq' =>
    h.eq_of_cls a ha b hb (((haccepts a ha).1 heq).trans ((haccepts b hb).1 heq').symm)]
  cases hfind : (List.range m.top).find? fun a => accepts (m.key a) with
  | none =>
    refine .inl ⟨rfl, Option.eq_none_iff_forall_ne_some.2 fun p hp => ?_⟩
    obtain ⟨a, ha, hc⟩ := h.exists_node c p hp
    exact List.find?_eq_none.1 hfind a (mem_range.2 ha) ((haccepts a ha).2 hc)
  | some a =>
    have ha := mem_range.1 (mem_of_find?_eq_some hfind)
    have haccept : accepts (m.key a) = true := List.find?_some (p := fun a => accepts (m.key a)) hfind
    have hc := (haccepts a ha).1 haccept
    exact .inr ⟨a, ha, rfl, hc, hc ▸ h.apply_eq a ha⟩

theorem Stores.replace [DecidableEq C] (h : m.Stores hash cls f) {a : ℕ} (ha : a < m.top) (v : V) :
    (m.replace a v).Stores hash cls (update f (cls (m.key a)) (some (m.key a, v))) := by
  refine ⟨h.holds, fun b hb => ?_, h.eq_of_cls, fun c p hp => ?_, h.count_eq⟩
  · change update f _ _ (cls (m.key b)) = some (m.key b, update m.val a v b)
    by_cases hba : b = a
    · rw [hba, update_self, update_self]
    · rw [update_of_ne (fun hc => hba (h.eq_of_cls b hb a ha hc)), update_of_ne hba]
      exact h.apply_eq b hb
  · by_cases hc : c = cls (m.key a)
    · exact ⟨a, ha, hc.symm⟩
    · rw [update_of_ne hc] at hp
      exact h.exists_node c p hp

theorem Stores.push [DecidableEq C] (h : m.Stores hash cls f) {k : K} (hnew : f (cls k) = none) (v : V) :
    (m.push (hash k) k v).Stores hash cls (update f (cls k) (some (k, v))) := by
  have hkey : ∀ a < m.top, (m.push (hash k) k v).key a = m.key a := fun a ha => update_of_ne ha.ne ..
  have hval : ∀ a < m.top, (m.push (hash k) k v).val a = m.val a := fun a ha => update_of_ne ha.ne ..
  have hkeyTop : (m.push (hash k) k v).key m.top = k := update_self ..
  have hvalTop : (m.push (hash k) k v).val m.top = v := update_self ..
  have hother : ∀ a < m.top, cls (m.key a) ≠ cls k := fun a ha hc => by
    have := h.apply_eq a ha
    rw [hc, hnew] at this
    cases this
  refine ⟨?_, fun a ha => ?_, fun a ha b hb hab => ?_, fun c p hp => ?_, congrArg (· + 1) h.count_eq⟩
  · have hold : m.chains.Holds (fun a => hash ((m.push (hash k) k v).key a)) (List.range m.top) :=
      h.holds.congr_hash fun a ha => by rw [hkey a (mem_range.1 ha)]
    have hpush := hold.push (a := m.top) (by simp)
    rw [hkeyTop] at hpush
    apply hpush.congr
    intro a
    rw [mem_range, mem_cons, mem_range]
    exact Nat.lt_succ_iff.trans (Nat.le_iff_lt_or_eq.trans or_comm)
  · rcases Nat.lt_succ_iff_lt_or_eq.1 ha with ha | rfl
    · rw [hkey a ha, hval a ha, update_of_ne (hother a ha)]
      exact h.apply_eq a ha
    · rw [hkeyTop, hvalTop, update_self]
  · rcases Nat.lt_succ_iff_lt_or_eq.1 ha with ha | rfl <;> rcases Nat.lt_succ_iff_lt_or_eq.1 hb with hb | rfl
    · rw [hkey a ha, hkey b hb] at hab
      exact h.eq_of_cls a ha b hb hab
    · rw [hkey a ha, hkeyTop] at hab
      exact absurd hab (hother a ha)
    · rw [hkey b hb, hkeyTop] at hab
      exact absurd hab.symm (hother b hb)
    · rfl
  · by_cases hc : c = cls k
    · exact ⟨m.top, Nat.lt_succ_self _, by rw [hkeyTop, hc]⟩
    · rw [update_of_ne hc] at hp
      obtain ⟨a, ha, hac⟩ := h.exists_node c p hp
      exact ⟨a, Nat.lt_succ_of_lt ha, by rw [hkey a ha, hac]⟩

theorem Stores.expandIf (h : m.Stores hash cls f) (full : Bool) {size : ℕ} (hsize : 0 < size) :
    ∃ m', m.expandIf full hash size = some m' ∧ m'.Stores hash cls f := by
  cases full with
  | false => exact ⟨m, rfl, h⟩
  | true =>
    obtain ⟨chains, hchains, -, hholds⟩ := h.holds.rehash hsize (Nat.le_of_eq length_range)
    refine ⟨{ m with chains := chains }, ?_, hholds, h.apply_eq, h.eq_of_cls, h.exists_node, h.count_eq⟩
    rw [PairTable.expandIf, if_pos rfl, expand, hchains]
    rfl

theorem Stores.cls_eq (h : m.Stores hash cls f) {c : C} {p : K × V} (hp : f c = some p) : cls p.1 = c := by
  obtain ⟨a, ha, rfl⟩ := h.exists_node c p hp
  rw [h.apply_eq a ha, Option.some.injEq] at hp
  rw [← hp]

theorem Stores.pairs (h : m.Stores hash cls f) :
    (m.pairs.map fun p => cls p.1).Nodup ∧ ∀ p, p ∈ m.pairs ↔ f (cls p.1) = some p := by
  obtain ⟨hnodup, hmem⟩ := h.holds.flatMap_chainNodes (Nat.le_of_eq length_range)
  have hlt : ∀ a ∈ m.nodes, a < m.top := fun a ha => mem_range.1 ((hmem a).1 ha)
  constructor
  · rw [PairTable.pairs, map_map]
    exact List.Nodup.map_on (fun a ha b hb hab => h.eq_of_cls a (hlt a ha) b (hlt b hb) hab) hnodup
  · intro p
    rw [PairTable.pairs, mem_map]
    constructor
    · intro hboth
      obtain ⟨a, ha, rfl⟩ := hboth
      exact h.apply_eq a (hlt a ha)
    · intro hp
      obtain ⟨a, ha, hc⟩ := h.exists_node _ p hp
      rw [← hc, h.apply_eq a ha] at hp
      exact ⟨a, (hmem a).2 (mem_range.2 ha), Option.some.inj hp⟩

end PairTable

end Chains
