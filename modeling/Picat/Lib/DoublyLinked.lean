import Picat.Lib.HashChains

/-!
# Doubly linked lists in a memory of links

* `Shares` : lists without a common cell in one memory; an operation on one of them leaves the others as they are.
-/

namespace DoublyLinked

open Chains Function List

variable {α : Type*}

structure Links (α : Type*) where
  next : α → Option α
  prev : α → Option α

structure Ends (α : Type*) where
  list : Option α
  tail : Option α

def Ends.nil : Ends α := ⟨none, none⟩

section Operations
variable [DecidableEq α]

def pushFront (m : Links α) (e : Ends α) (a : α) : Links α × Ends α :=
  match e.list with
  | none => (⟨update m.next a none, update m.prev a none⟩, ⟨some a, some a⟩)
  | some b =>
    (⟨update m.next a (some b), update (update m.prev a none) b (some a)⟩, ⟨some a, e.tail⟩)

def pushBack (m : Links α) (e : Ends α) (a : α) : Option (Links α × Ends α) :=
  match e.list, e.tail with
  | none, _ => some (⟨update m.next a none, update m.prev a none⟩, ⟨some a, some a⟩)
  | some _, none => none
  | some _, some b =>
    some (⟨update (update m.next a none) b (some a), update m.prev a (some b)⟩, ⟨e.list, some a⟩)

def push (front : Bool) (m : Links α) (e : Ends α) (a : α) : Option (Links α × Ends α) :=
  if front then some (pushFront m e a) else pushBack m e a

def unlink (m : Links α) (e : Ends α) (a : α) : Option (Links α × Ends α) :=
  if e.list = some a then
    match m.next a with
    | none => some (m, ⟨none, none⟩)
    | some b => some (⟨m.next, update m.prev b none⟩, ⟨some b, e.tail⟩)
  else if e.tail = some a then
    match m.prev a with
    | none => some (⟨m.next, update m.prev a none⟩, ⟨none, none⟩)
    | some p => some (⟨update m.next p none, update m.prev a none⟩, ⟨e.list, some p⟩)
  else
    match m.prev a, m.next a with
    | none, _ => some (m, e)
    | some _, none => none
    | some p, some n =>
      some (⟨update m.next p (some n), update (update m.prev n (some p)) a none⟩, e)

end Operations

def insertAt (front : Bool) (a : α) (as : List α) : List α := if front then a :: as else as ++ [a]

section InsertAt
variable {β : Type*} {front : Bool} {a b : α} {as : List α}

@[simp] theorem mem_insertAt : b ∈ insertAt front a as ↔ b = a ∨ b ∈ as := by
  cases front <;> simp [insertAt, or_comm]

@[simp] theorem map_insertAt (f : α → β) : (insertAt front a as).map f = insertAt front (f a) (as.map f) := by
  cases front <;> simp [insertAt]

theorem filter_insertAt (p : α → Bool) :
    (insertAt front a as).filter p = if p a then insertAt front a (as.filter p) else as.filter p := by
  cases front <;> by_cases hp : p a <;> simp [insertAt, hp]

theorem nodup_insertAt : (insertAt front a as).Nodup ↔ a ∉ as ∧ as.Nodup := by
  cases front
  · rw [insertAt, if_neg Bool.false_ne_true, nodup_append]
    refine ⟨fun h => ⟨fun ha => h.2.2 a ha a (mem_singleton_self a) rfl, h.1⟩, fun h => ⟨h.2, nodup_singleton a, ?_⟩⟩
    intro x hx y hy hxy
    exact h.1 (mem_singleton.1 hy ▸ hxy ▸ hx)
  · exact nodup_cons

end InsertAt

/-! ## The cells of a list -/

/-- Each cell is linked to the one before it and to the one after it. -/
structure Holds (m : Links α) (e : Ends α) (as : List α) : Prop where
  list_eq : e.list = as.head?
  tail_eq : e.tail = as.getLast?
  nodup : as.Nodup
  links : ∀ pre a post, as = pre ++ a :: post → m.next a = post.head? ∧ m.prev a = pre.getLast?

def SameLinks (m m' : Links α) (a : α) : Prop := m'.next a = m.next a ∧ m'.prev a = m.prev a

variable {m m' : Links α} {e e' : Ends α} {as : List α} {a : α}

theorem holds_nil (m : Links α) : Holds m .nil [] :=
  ⟨rfl, rfl, nodup_nil, fun _ _ _ h => absurd h (by simp)⟩

theorem Holds.congr (h : Holds m e as) (hsame : ∀ a ∈ as, SameLinks m m' a) : Holds m' e as := by
  refine ⟨h.list_eq, h.tail_eq, h.nodup, fun pre a post has => ?_⟩
  obtain ⟨hnext, hprev⟩ := hsame a (by rw [has]; simp)
  rw [hnext, hprev]
  exact h.links pre a post has

theorem Holds.chain_next (h : Holds m e as) {pre post : List α} (has : as = pre ++ a :: post) :
    Chain id m.next (m.next a) post := by
  induction post generalizing pre a with
  | nil => exact (h.links pre a [] has).1
  | cons b post ih =>
    have hnext : as = (pre ++ [a]) ++ b :: post := by
      rw [has, append_assoc]
      rfl
    exact ⟨(h.links pre a (b :: post) has).1, ih hnext⟩

theorem Holds.chain (h : Holds m e as) : Chain id m.next e.list as := by
  rw [h.list_eq]
  cases as with
  | nil => rfl
  | cons a as =>
    have has : a :: as = [] ++ a :: as := rfl
    exact ⟨rfl, h.chain_next has⟩

theorem mem_of_head? {x : α} (h : as.head? = some x) : x ∈ as := mem_of_mem_head? h

theorem mem_of_getLast? {x : α} (h : as.getLast? = some x) : x ∈ as := mem_of_mem_getLast? h

section Specs
variable [DecidableEq α]

theorem Holds.pushFront (h : Holds m e as) (ha : a ∉ as) : Holds (pushFront m e a).1 (pushFront m e a).2 (a :: as) ∧
      ∀ b, b ∉ a :: as → SameLinks m (pushFront m e a).1 b := by
  unfold DoublyLinked.pushFront
  rw [h.list_eq]
  cases as with
  | nil =>
    refine ⟨⟨rfl, rfl, nodup_singleton a, fun pre x post hx => ?_⟩, fun b hb => ?_⟩
    · obtain ⟨rfl, rfl, rfl⟩ : pre = [] ∧ x = a ∧ post = [] := by
        cases pre <;> simp_all
      exact ⟨update_self .., update_self ..⟩
    · have hba : b ≠ a := fun heq => hb (heq ▸ mem_singleton_self a)
      exact ⟨update_of_ne hba .., update_of_ne hba ..⟩
  | cons c as =>
    have hac : a ≠ c := fun heq => ha (heq ▸ mem_cons_self)
    have hnodup := nodup_cons.2 ⟨ha, h.nodup⟩
    refine ⟨⟨rfl, ?_, hnodup, fun pre x post hx => ?_⟩, fun b hb => ?_⟩
    · rw [List.getLast?_cons_cons]
      exact h.tail_eq
    · cases pre with
      | nil =>
        obtain ⟨rfl, rfl⟩ := cons_eq_cons.1 hx
        refine ⟨update_self .., ?_⟩
        change update (update m.prev _ none) c _ _ = none
        rw [update_of_ne hac, update_self]
      | cons y pre =>
        rw [cons_append, List.cons.injEq] at hx
        obtain ⟨rfl, hx⟩ := hx
        obtain ⟨hnext, hprev⟩ := h.links pre x post hx
        have hxa : x ≠ a := fun heq => ha (by rw [hx, ← heq]; simp)
        refine ⟨(update_of_ne hxa ..).trans hnext, ?_⟩
        change update (update m.prev a none) c (some a) x = (a :: pre).getLast?
        cases pre with
        | nil =>
          rw [nil_append, List.cons.injEq] at hx
          obtain ⟨rfl, -⟩ := hx
          exact update_self ..
        | cons z pre =>
          rw [cons_append, List.cons.injEq] at hx
          obtain ⟨rfl, hx⟩ := hx
          have hxc : x ≠ c := fun heq =>
            (nodup_cons.1 h.nodup).1 (by rw [hx, ← heq]; simp)
          rw [update_of_ne hxc, update_of_ne hxa, hprev, List.getLast?_cons_cons]
    · rw [mem_cons, not_or] at hb
      have hbc : b ≠ c := fun heq => hb.2 (heq ▸ mem_cons_self)
      refine ⟨update_of_ne hb.1 .., ?_⟩
      exact (update_of_ne hbc ..).trans (update_of_ne hb.1 ..)

theorem Holds.pushBack (h : Holds m e as) (ha : a ∉ as) :
    ∃ r, pushBack m e a = some r ∧ Holds r.1 r.2 (as ++ [a]) ∧ ∀ b, b ∉ as ++ [a] → SameLinks m r.1 b := by
  unfold DoublyLinked.pushBack
  rw [h.list_eq, h.tail_eq]
  rcases eq_nil_or_concat as with rfl | ⟨init, c, rfl⟩
  · refine ⟨_, rfl, ⟨rfl, rfl, nodup_singleton a, fun pre x post hx => ?_⟩, fun b hb => ?_⟩
    · obtain ⟨rfl, rfl, rfl⟩ : pre = [] ∧ x = a ∧ post = [] := by
        cases pre <;> simp_all
      exact ⟨update_self .., update_self ..⟩
    · have hba : b ≠ a := fun heq => hb (heq ▸ mem_singleton_self a)
      exact ⟨update_of_ne hba .., update_of_ne hba ..⟩
  · rw [concat_eq_append] at h ha ⊢
    have hca : c ≠ a := fun heq => ha (heq ▸ mem_append_right _ (mem_singleton_self c))
    obtain ⟨d, hd⟩ : ∃ d, (init ++ [c]).head? = some d := by
      cases init with
      | nil => exact ⟨_, rfl⟩
      | cons d _ => exact ⟨d, rfl⟩
    have hlast : (init ++ [c]).getLast? = some c := by simp
    rw [hd, hlast]
    refine ⟨_, rfl, ⟨?_, ?_, ?_, fun pre x post hx => ?_⟩, fun b hb => ?_⟩
    · cases init <;> simp_all
    · simp
    · exact nodup_append.2 ⟨h.nodup, nodup_singleton a, fun x hx y hy heq =>
        ha (mem_singleton.1 hy ▸ heq ▸ hx)⟩
    · rcases eq_nil_or_concat post with rfl | ⟨post, y, rfl⟩
      · obtain ⟨rfl, hxa⟩ := append_inj' hx rfl
        obtain rfl : a = x := by simpa using hxa
        refine ⟨?_, ?_⟩
        · change update (update m.next a none) c (some a) a = none
          rw [update_of_ne hca.symm, update_self]
        · rw [hlast]
          exact update_self ..
      · rw [concat_eq_append] at hx ⊢
        rw [show pre ++ x :: (post ++ [y]) = (pre ++ x :: post) ++ [y] by simp] at hx
        obtain ⟨hold, hy⟩ := append_inj' hx rfl
        obtain rfl : a = y := by simpa using hy
        obtain ⟨hnext, hprev⟩ := h.links pre x post hold
        have hxa : x ≠ a := fun heq => ha (by rw [hold, ← heq]; simp)
        refine ⟨?_, (update_of_ne hxa ..).trans hprev⟩
        change update (update m.next a none) c (some a) x = (post ++ [a]).head?
        rcases eq_nil_or_concat post with rfl | ⟨post, z, rfl⟩
        · obtain ⟨-, hcx⟩ := append_inj' hold rfl
          obtain rfl : c = x := by simpa using hcx
          exact update_self ..
        · rw [concat_eq_append] at hold hnext ⊢
          have hxc : x ≠ c := fun heq => by
            rw [show pre ++ x :: (post ++ [z]) = (pre ++ x :: post) ++ [z] by simp] at hold
            obtain ⟨hinit, -⟩ := append_inj' hold rfl
            exact (nodup_append.1 h.nodup).2.2 x (by rw [hinit]; simp) c (mem_singleton_self c) heq
          rw [update_of_ne hxc, update_of_ne hxa, hnext]
          cases post <;> simp
    · rw [mem_append, mem_singleton, not_or] at hb
      have hbc : b ≠ c := fun heq => hb.1 (by rw [heq]; simp)
      refine ⟨?_, update_of_ne hb.2 ..⟩
      exact (update_of_ne hbc ..).trans (update_of_ne hb.2 ..)

theorem Holds.push (front : Bool) (h : Holds m e as) (ha : a ∉ as) :
    ∃ r, push front m e a = some r ∧ Holds r.1 r.2 (insertAt front a as) ∧
      ∀ b, b ∉ insertAt front a as → SameLinks m r.1 b := by
  cases front with
  | false => exact h.pushBack ha
  | true => exact ⟨_, rfl, h.pushFront ha⟩

theorem Holds.cut {l r : List α} (h : Holds m e (l ++ a :: r)) (hlist : e'.list = (l ++ r).head?)
    (htail : e'.tail = (l ++ r).getLast?)
    (hnext : ∀ x ∈ l ++ r, m'.next x = if l.getLast? = some x then r.head? else m.next x)
    (hprev : ∀ x ∈ l ++ r, m'.prev x = if r.head? = some x then l.getLast? else m.prev x) : Holds m' e' (l ++ r) := by
  have hnodup := nodup_append.1 h.nodup
  have hr := nodup_cons.1 hnodup.2.1
  have hlr : ∀ x ∈ l, ∀ y ∈ r, x ≠ y := fun x hx y hy => hnodup.2.2 x hx y (mem_cons_of_mem a hy)
  refine ⟨hlist, htail, nodup_append.2 ⟨hnodup.1, hr.2, hlr⟩, fun pre x post hx => ?_⟩
  have hmem : x ∈ l ++ r := by rw [hx]; simp
  rw [hnext x hmem, hprev x hmem]
  rcases append_eq_append_iff.1 hx with ⟨r', hpre, hr'⟩ | ⟨l', hl', hpost⟩
  · -- the cell stands behind the cut
    subst hpre
    have hxr : x ∈ r := by rw [hr']; simp
    have hxl : l.getLast? ≠ some x := fun heq => hlr x (mem_of_getLast? heq) x hxr rfl
    obtain ⟨hold, hold'⟩ := h.links (l ++ a :: r') x post (by rw [hr']; simp)
    rw [if_neg hxl, hold, hold']
    refine ⟨rfl, ?_⟩
    cases r' with
    | nil => simp [hr']
    | cons b r' =>
      have hbx : b ≠ x := fun heq => (nodup_cons.1 (hr' ▸ hr.2)).1 (by rw [heq]; simp)
      simp [hr', hbx]
  · -- the cell stands before it
    cases l' with
    | nil =>
      rw [append_nil] at hl'
      rw [nil_append] at hpost
      subst hl'
      have hxr : x ∈ r := by rw [← hpost]; simp
      have hxl : l.getLast? ≠ some x := fun heq => hlr x (mem_of_getLast? heq) x hxr rfl
      obtain ⟨hold, -⟩ := h.links (l ++ [a]) x post (by rw [← hpost]; simp)
      rw [if_neg hxl, hold]
      simp [← hpost]
    | cons y l' =>
      rw [cons_append, List.cons.injEq] at hpost
      obtain ⟨rfl, rfl⟩ := hpost
      have hxl : x ∈ l := by rw [hl']; simp
      have hxr : r.head? ≠ some x := fun heq => hlr x hxl x (mem_of_head? heq) rfl
      obtain ⟨hold, hold'⟩ := h.links pre x (l' ++ a :: r) (by rw [hl']; simp)
      rw [if_neg hxr, hold, hold']
      refine ⟨?_, rfl⟩
      rcases eq_nil_or_concat l' with rfl | ⟨l', z, rfl⟩
      · simp [hl']
      · rw [concat_eq_append] at hl' ⊢
        have hzx : z ≠ x := fun heq => by
          rw [hl', heq] at hnodup
          exact (nodup_cons.1 (nodup_append.1 hnodup.1).2.1).1 (by simp)
        rw [hl', show pre ++ x :: (l' ++ [z]) = (pre ++ x :: l') ++ [z] by simp, List.getLast?_concat,
          if_neg (by simpa using hzx)]
        cases l' <;> simp

theorem Holds.unlink {l r : List α} (h : Holds m e (l ++ a :: r)) :
    ∃ s, unlink m e a = some s ∧ Holds s.1 s.2 (l ++ r) ∧ ∀ b, b ∉ l ++ a :: r → SameLinks m s.1 b := by
  obtain ⟨hnext, hprev⟩ := h.links l a r rfl
  have hnodup := nodup_append.1 h.nodup
  have har : a ∉ r := (nodup_cons.1 hnodup.2.1).1
  have hal : a ∉ l := fun hin => hnodup.2.2 a hin a mem_cons_self rfl
  unfold DoublyLinked.unlink
  rw [h.list_eq, h.tail_eq, hnext, hprev]
  rcases eq_nil_or_concat l with rfl | ⟨l, p, rfl⟩
  · have hhead : ([] ++ a :: r).head? = some a := rfl
    rw [if_pos hhead]
    cases r with
    | nil => exact ⟨_, rfl, holds_nil m, fun b _ => ⟨rfl, rfl⟩⟩
    | cons n r =>
      refine ⟨_, rfl, h.cut rfl ?_ (fun x _ => rfl) (fun x hx => ?_), fun b hb => ⟨rfl, ?_⟩⟩
      · simp
      · change update m.prev n none x = _
        by_cases hxn : x = n
        · simp [hxn]
        · rw [update_of_ne hxn, if_neg (by simpa using Ne.symm hxn)]
      · have hbn : b ≠ n := fun heq => hb (by rw [heq]; simp)
        exact update_of_ne hbn ..
  · rw [concat_eq_append] at h hal hnodup ⊢
    have hap : a ≠ p := fun heq => hal (by rw [heq]; simp)
    have hhead : (l ++ [p] ++ a :: r).head? ≠ some a := fun heq => by
      cases l with
      | nil => exact hap (by simpa using heq.symm)
      | cons b l =>
        have hba : b = a := by simpa using heq
        exact hal (by rw [hba]; simp)
    rw [if_neg hhead, List.getLast?_concat]
    cases r with
    | nil =>
      rw [if_pos (by simp)]
      refine ⟨_, rfl, ?_, fun b hb => ⟨?_, ?_⟩⟩
      · refine h.cut ?_ ?_ (fun x hx => ?_) fun x hx => ?_
        · cases l <;> simp
        · simp
        · change update m.next p none x = _
          by_cases hxp : x = p
          · simp [hxp]
          · rw [update_of_ne hxp, if_neg (by simpa using Ne.symm hxp)]
        · rw [append_nil] at hx
          change update m.prev a none x = _
          rw [update_of_ne (ne_of_mem_of_not_mem hx hal), if_neg (by simp)]
      · exact update_of_ne (fun heq => hb (by rw [heq]; simp)) ..
      · exact update_of_ne (fun heq => hb (by rw [heq]; simp)) ..
    | cons n r =>
      have hlast : (l ++ [p] ++ a :: n :: r).getLast? ≠ some a := fun heq => by
        rw [List.getLast?_append_of_ne_nil _ (by simp), List.getLast?_cons_cons] at heq
        exact har (mem_of_getLast? heq)
      have han : a ≠ n := fun heq => har (by rw [heq]; simp)
      rw [if_neg hlast]
      refine ⟨_, rfl, ?_, fun b hb => ⟨?_, ?_⟩⟩
      · refine h.cut ?_ ?_ (fun x hx => ?_) fun x hx => ?_
        · rw [h.list_eq]
          cases l <;> simp
        · rw [h.tail_eq]
          simp
        · change update m.next p (some n) x = _
          by_cases hxp : x = p
          · simp [hxp]
          · rw [update_of_ne hxp, if_neg (by simpa using Ne.symm hxp)]
        · have hxa : x ≠ a := fun heq => by
            rw [heq, mem_append] at hx
            exact hx.elim hal har
          change update (update m.prev n (some p)) a none x = _
          rw [update_of_ne hxa]
          by_cases hxn : x = n
          · simp [hxn]
          · rw [update_of_ne hxn, if_neg (by simpa using Ne.symm hxn)]
      · exact update_of_ne (fun heq => hb (by rw [heq]; simp)) ..
      · have hbn : b ≠ n := fun heq => hb (by rw [heq]; simp)
        have hba : b ≠ a := fun heq => hb (by rw [heq]; simp)
        exact (update_of_ne hba ..).trans (update_of_ne hbn ..)

end Specs

structure Shares {ι : Type*} (m : Links α) (ends : ι → Ends α) (cells : ι → List α) : Prop where
  holds : ∀ i, Holds m (ends i) (cells i)
  disjoint : ∀ i j, i ≠ j → ∀ a ∈ cells i, a ∉ cells j

variable {ι : Type*} {ends : ι → Ends α} {cells : ι → List α}

theorem Shares.update [DecidableEq ι] (h : Shares m ends cells) (i : ι) (hnew : Holds m' e' as)
    (hframe : ∀ b, b ∉ cells i → b ∉ as → SameLinks m m' b) (hfresh : ∀ b ∈ as, b ∈ cells i ∨ ∀ j, b ∉ cells j) :
    Shares m' (update ends i e') (update cells i as) := by
  have hother : ∀ j, j ≠ i → ∀ b ∈ cells j, b ∉ as := fun j hj b hb hin =>
    (hfresh b hin).elim (h.disjoint j i hj b hb) fun hno => hno j hb
  refine ⟨fun j => ?_, fun j k hjk b hb => ?_⟩
  · by_cases hj : j = i
    · rw [hj, update_self, update_self]
      exact hnew
    · rw [update_of_ne hj, update_of_ne hj]
      exact (h.holds j).congr fun b hb => hframe b (h.disjoint j i hj b hb) (hother j hj b hb)
  · by_cases hj : j = i
    · rw [hj, update_self] at hb
      rw [update_of_ne (hj ▸ hjk.symm)]
      exact fun hk => hother k (hj ▸ hjk.symm) b hk hb
    · rw [update_of_ne hj] at hb
      by_cases hk : k = i
      · rw [hk, update_self]
        exact hother j hj b hb
      · rw [update_of_ne hk]
        exact h.disjoint j k hjk b hb

theorem Shares.rename {κ : Type*} (h : Shares m ends cells) {ends' : κ → Ends α} {cells' : κ → List α} {f : κ → Option ι}
    (hf : ∀ i j k, f i = some k → f j = some k → i = j)
    (hsome : ∀ i k, f i = some k → ends' i = ends k ∧ cells' i = cells k)
    (hnone : ∀ i, f i = none → ends' i = .nil ∧ cells' i = []) : Shares m ends' cells' := by
  refine ⟨fun i => ?_, fun i j hij a ha => ?_⟩
  · cases hi : f i with
    | none =>
      rw [(hnone i hi).1, (hnone i hi).2]
      exact holds_nil m
    | some k =>
      rw [(hsome i k hi).1, (hsome i k hi).2]
      exact h.holds k
  · cases hi : f i with
    | none =>
      rw [(hnone i hi).2] at ha
      exact absurd ha not_mem_nil
    | some k =>
      rw [(hsome i k hi).2] at ha
      cases hj : f j with
      | none =>
        rw [(hnone j hj).2]
        exact not_mem_nil
      | some l =>
        rw [(hsome j l hj).2]
        exact h.disjoint k l (fun hkl => hij (hf i j k hi (hkl ▸ hj))) a ha

end DoublyLinked
