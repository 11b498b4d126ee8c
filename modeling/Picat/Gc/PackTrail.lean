import Picat.Gc.Trail

/-!
# Packing the trail

* `trail_compaction` : packing and then removing duplicates, as the garbage collector does.
-/

namespace Picat.Trail

open UndoLog List

/-- A choice point and the next older one, which has its frame above and its part of the heap below. -/
structure Below (g : State) (f f' : Word) : Prop where
  arB : g.arB f = f'
  lt : f < f'
  arH : g.arH f' ≤ g.arH f
  arT : ∃ n, g.arT f' = g.arT f + 2 * n

/-- `fs` are the choice points from `breg` on, the youngest one first, and `root` is the oldest one. -/
structure ChoiceStack (g : State) (fs : List Word) (root : Word) : Prop where
  head : (fs ++ [root]).head? = some g.breg
  chain : (fs ++ [root]).IsChain (Below g)
  root_arB : g.arB root = root
  root_arT : g.arT root = g.trailUpAddr
  top : ∃ n, g.arT g.breg = g.trailTop + 2 * n

/-- The choice points that `packEntireTrail` goes through: the oldest one only when there is no other. -/
def packed (fs : List Word) (root : Word) : List Word := if fs = [] then [root] else fs

section
variable {g g' : State} {root : Word} {fs : List Word}

/-! ## The queue -/

def withEnds (g : State) : ℕ → List Word → List (Word × ℕ)
  | _, [] => []
  | cont, f :: fs => (f, cont) :: withEnds g (g.arT f) fs

theorem queueChoicePoints_run {f : Word} (hchain : (f :: fs ++ [root]).IsChain (Below g)) (hroot : g.arB root = root)
    (cont : ℕ) (queue : List (Word × ℕ)) :
    queueChoicePoints g f (g.arB f) cont queue = some ((withEnds g cont (f :: fs)).reverse ++ queue) := by
  induction fs generalizing f cont queue with
  | nil =>
    have hf : g.arB f = root := (isChain_cons_cons.1 hchain).1.arB
    rw [queueChoicePoints, hf, if_pos hroot.symm]
    rfl
  | cons f' fs ih =>
    obtain ⟨hf, hrest⟩ := isChain_cons_cons.1 hchain
    have hne : f' ≠ g.arB f' := by
      obtain ⟨f'', fs', hfs⟩ : ∃ f'' fs', fs ++ [root] = f'' :: fs' := exists_cons_of_ne_nil (by simp)
      change (f' :: (fs ++ [root])).IsChain (Below g) at hrest
      rw [hfs, isChain_cons_cons] at hrest
      rw [hrest.1.arB]
      exact BitVec.ne_of_lt hrest.1.lt
    rw [queueChoicePoints, hf.arB, if_neg hne, if_pos hf.lt, ih hrest, withEnds, withEnds, withEnds]
    simp

structure Older (g : State) (f f' : Word) : Prop where
  lt : f < f'
  arH : g.arH f' ≤ g.arH f
  arT : ∃ n, g.arT f' = g.arT f + 2 * n

theorem Below.older {f f' : Word} (h : Below g f f') : Older g f f' := ⟨h.lt, h.arH, h.arT⟩

instance : IsTrans Word (Older g) := ⟨fun _ _ _ h h' => by
  obtain ⟨n, hn⟩ := h.arT
  obtain ⟨m, hm⟩ := h'.arT
  exact ⟨BitVec.lt_trans h.lt h'.lt, BitVec.le_trans h'.arH h.arH, n + m, by omega⟩⟩

theorem Older.younger {f f' a : Word} (h : Older g f f') (ha : younger g f a = true) : younger g f' a = true := by
  rw [Trail.younger, Bool.and_eq_true, decide_eq_true_iff, decide_eq_true_iff] at ha ⊢
  exact ⟨BitVec.lt_trans ha.1 h.lt, BitVec.le_trans h.arH ha.2⟩

/-- The segments from the position `hi` down to `bottom`, the oldest choice point first. -/
def Queued (g : State) (bottom : ℕ) : ℕ → List (Word × ℕ) → Prop
  | hi, [] => hi = bottom
  | hi, (f, cont) :: queue => g.arT f = hi ∧ (∃ n, hi = cont + 2 * n) ∧ (∀ p ∈ queue, Older g p.1 f) ∧
      Queued g bottom cont queue

theorem Queued.snoc {hi mid cont : ℕ} {f : Word} {queue : List (Word × ℕ)} (Q : Queued g mid hi queue)
    (hmid : g.arT f = mid) (hcont : ∃ n, mid = cont + 2 * n) (hf : ∀ p ∈ queue, Older g f p.1) :
    Queued g cont hi (queue ++ [(f, cont)]) := by
  induction queue generalizing hi with
  | nil =>
    obtain rfl : hi = mid := Q
    exact ⟨hmid, hcont, fun p hp => absurd hp not_mem_nil, rfl⟩
  | cons p queue ih =>
    obtain ⟨hT, hn, hall, hrest⟩ := Q
    rw [forall_mem_cons] at hf
    refine ⟨hT, hn, fun p' hp' => ?_, ih hrest hf.2⟩
    obtain hp' | hp' := mem_append.1 hp'
    · exact hall p' hp'
    · rw [mem_singleton.1 hp']
      exact hf.1

section
variable {bottom hi : ℕ} {queue : List (Word × ℕ)} (Q : Queued g bottom hi queue)
include Q

theorem Queued.congr (harH : g'.arH = g.arH)
    (harT : ∀ p ∈ queue, g'.arT p.1 = g.arT p.1) : Queued g' bottom hi queue := by
  induction queue generalizing hi with
  | nil => exact Q
  | cons p queue ih =>
    obtain ⟨hT, hn, hall, hrest⟩ := Q
    rw [forall_mem_cons] at harT
    refine ⟨harT.1.trans hT, hn, fun q hq => ?_, ih hrest harT.2⟩
    obtain ⟨hlt, hH, hq'⟩ := hall q hq
    exact ⟨hlt, harH ▸ hH, by rwa [harT.1, harT.2 q hq]⟩

theorem Queued.arT_le : ∀ p ∈ queue, g.arT p.1 ≤ hi := by
  cases queue with
  | nil => exact fun p hp => absurd hp not_mem_nil
  | cons p queue =>
    obtain ⟨hT, -, hall, -⟩ := Q
    rw [forall_mem_cons]
    refine ⟨hT.le, fun q hq => ?_⟩
    obtain ⟨k, hk⟩ := (hall q hq).arT
    omega

end

theorem map_withEnds (cont : ℕ) (fs : List Word) : (withEnds g cont fs).map Prod.fst = fs := by
  induction fs generalizing cont with
  | nil => rfl
  | cons f fs ih => rw [withEnds, map_cons, ih]

theorem queued_withEnds {f : Word} {cont : ℕ} (hchain : (f :: fs).Pairwise (Older g)) (hcont : ∃ n, g.arT f = cont + 2 * n) :
    ∃ f' ∈ f :: fs, Queued g cont (g.arT f') (withEnds g cont (f :: fs)).reverse := by
  induction fs generalizing f cont with
  | nil => exact ⟨f, mem_singleton_self f, rfl, hcont, fun p hp => absurd hp not_mem_nil, rfl⟩
  | cons f₂ fs ih =>
    obtain ⟨hf, hrest⟩ := pairwise_cons.1 hchain
    obtain ⟨f', hf', Q⟩ := ih hrest (hf f₂ mem_cons_self).arT
    refine ⟨f', mem_cons_of_mem f hf', ?_⟩
    rw [withEnds, reverse_cons]
    refine Q.snoc rfl hcont fun p hp => hf p.1 ?_
    rw [mem_reverse] at hp
    exact map_withEnds (g.arT f) (f₂ :: fs) ▸ mem_map_of_mem hp

/-! ## The segments -/

/-- The oldest entries of the older cells, when `top` becomes `top'` and the trail below it is packed; those that stay are
not for cells younger than `b`. -/
def Repacked (g g' : State) (b : Word) (bottom top top' : ℕ) (lost : Word → Prop) : Prop :=
  ∃ n m, top = bottom + 2 * n ∧ top' = g'.trailTop + 2 * m ∧
    (∀ a, ¬ lost a → oldest Entry.addr (segment g'.trail g'.trailTop m) a = oldest Entry.addr (segment g.trail bottom n) a) ∧
    ∀ e ∈ segment g'.trail g'.trailTop m, e ∈ segment g.trail bottom n ∧ younger g b e.addr = false

theorem Repacked.mono {b : Word} {bottom top top' : ℕ} {lost lost' : Word → Prop} (h : Repacked g g' b bottom top top' lost)
    (hlost : ∀ a, lost a → lost' a) : Repacked g g' b bottom top top' lost' := by
  obtain ⟨n, m, hn, hm, hold, hmem⟩ := h
  exact ⟨n, m, hn, hm, fun a ha => hold a fun hl => ha (hlost a hl), hmem⟩

theorem Repacked.of_below {g₁ : State} {b : Word} {bottom top top' : ℕ} {lost : Word → Prop}
    (h : Repacked g₁ g' b bottom top top' lost) (harH : g₁.arH = g.arH) (htrail : ∀ i ≤ top, g₁.trail i = g.trail i) :
    Repacked g g' b bottom top top' lost := by
  obtain ⟨n, m, hn, hm, hold, hmem⟩ := h
  have hseg : segment g₁.trail bottom n = segment g.trail bottom n := segment_congr fun i _ hi => htrail i (by omega)
  have hy : younger g₁ b = younger g b := by
    funext a
    rw [younger, younger, harH]
  rw [hseg] at hold hmem
  rw [hy] at hmem
  exact ⟨n, m, hn, hm, hold, hmem⟩

theorem packSegment_run {f : Word} {cont n : ℕ} (hn : g.arT f = cont + 2 * n) (hle : g.arT f ≤ g.trailTop) :
    ∃ g' m, packSegment g f cont = some g' ∧
      g' = { g with trail := g'.trail, trailTop := g'.trailTop, arT := Function.update g.arT f g.trailTop } ∧
      g.trailTop = g'.trailTop + 2 * m ∧ cont ≤ g'.trailTop ∧
      segment g'.trail g'.trailTop m = (segment g.trail cont n).filter (fun e => !younger g f e.addr) ∧
      (∀ i ≤ cont, g'.trail i = g.trail i) ∧ ∀ i, g.trailTop < i → g'.trail i = g.trail i := by
  have hloop := compactLoop_run (packKeep g f) (fun _ done kept => kept = done.filter fun e => !younger g f e.addr)
    g.trail (hn ▸ hle) ?_ () rfl
  · obtain ⟨s', trail', trailTop', m, hrun, hm, hcont, hkept, hbelow, habove⟩ := hloop
    rw [← hn] at hrun
    exact ⟨{ g with trail := trail', trailTop := trailTop', arT := Function.update g.arT f g.trailTop }, m,
      by rw [packSegment, hrun, Option.map_some], rfl, hm, hcont, hkept, hbelow, habove⟩
  · intro s trail trailTop c done kept _ C hkept
    rw [packKeep, show c + 2 - 1 = c + 1 from rfl, C.below (c + 1) (by omega)]
    refine ⟨_, s, rfl, ?_⟩
    rw [filter_append, hkept]
    cases hy : younger g f (untagged3 (g.trail (c + 1))) with
    | true =>
      have he : younger g f (Entry.addr (g.trail (c + 1), g.trail (c + 2))) = true := hy
      rw [filter_cons_of_neg (by rw [he]; exact Bool.false_ne_true)]
      exact (append_nil _).symm
    | false =>
      have he : younger g f (Entry.addr (g.trail (c + 1), g.trail (c + 2))) = false := hy
      rw [filter_cons_of_pos (by rw [he]; rfl)]
      rfl

structure QueuePacked (g g' : State) (b : Word) (bottom hi : ℕ) (queue : List (Word × ℕ)) : Prop where
  rest : g' = { g with trail := g'.trail, trailTop := g'.trailTop, arT := g'.arT }
  above : ∀ i, g.trailTop < i → g'.trail i = g.trail i
  others : ∀ f, f ∉ queue.map Prod.fst → g'.arT f = g.arT f
  first : ∀ p ∈ queue.head?, g'.arT p.1 = g.trailTop
  arT_le : ∀ p ∈ queue, g'.arT p.1 ≤ g.trailTop
  mono : ∀ p ∈ queue, ∀ q ∈ queue, p.1 < q.1 → g'.arT p.1 ≤ g'.arT q.1
  whole : Repacked g g' b bottom hi g.trailTop fun a => ∃ p ∈ queue, younger g p.1 a = true
  each : ∀ p ∈ queue, Repacked g g' b bottom (g.arT p.1) (g'.arT p.1) fun a => younger g p.1 a = true

theorem queuePacked_nil (g : State) (b : Word) (bottom : ℕ) : QueuePacked g g b bottom bottom [] where
  rest := rfl
  above _ _ := rfl
  others _ _ := rfl
  first _ hp := absurd hp (Option.not_mem_none _)
  arT_le _ hp := absurd hp not_mem_nil
  mono _ hp := absurd hp not_mem_nil
  whole := ⟨0, 0, rfl, rfl, fun _ _ => rfl, fun _ he => absurd he not_mem_nil⟩
  each _ hp := absurd hp not_mem_nil

theorem packQueue_run {b : Word} {bottom hi : ℕ} {queue : List (Word × ℕ)} (Q : Queued g bottom hi queue)
    (hle : hi ≤ g.trailTop) (hb : ∀ p ∈ queue, ∀ a, younger g b a = true → younger g p.1 a = true) :
    ∃ g', packQueue g queue = some g' ∧ QueuePacked g g' b bottom hi queue := by
  induction queue generalizing g hi with
  | nil =>
    obtain rfl : hi = bottom := Q
    exact ⟨g, rfl, queuePacked_nil g b hi⟩
  | cons p queue ih =>
    obtain ⟨f, cont⟩ := p
    obtain ⟨rfl, ⟨n, hn⟩, holder, hrest⟩ := Q
    obtain ⟨g₁, m, hrun, hg₁, hm, hcont, hkept, hbelow, habove⟩ := packSegment_run hn hle
    have hne : ∀ p ∈ queue, p.1 ≠ f := fun p hp => BitVec.ne_of_lt (holder p hp).lt
    have hf : f ∉ queue.map Prod.fst := by
      rw [mem_map]
      rintro ⟨p, hp, rfl⟩
      exact hne p hp rfl
    have harH : g₁.arH = g.arH := by rw [hg₁]
    have harT : g₁.arT = Function.update g.arT f g.trailTop := by rw [hg₁]
    have harT_ne : ∀ {f'}, f' ≠ f → g₁.arT f' = g.arT f' := fun h => by rw [harT, Function.update_of_ne h]
    have hy : younger g₁ = younger g := by
      funext f a
      rw [younger, younger, harH]
    rw [forall_mem_cons] at hb
    have hqueue := hrest.congr harH fun p hp => harT_ne (hne p hp)
    obtain ⟨g', hrun', H⟩ := ih hqueue hcont (by rw [hy]; exact hb.2)
    have hfirst : g'.arT f = g.trailTop := by rw [H.others f hf, harT, Function.update_self]
    have harT_le : ∀ p ∈ queue, g'.arT p.1 ≤ g.trailTop := fun p hp => by
      have := H.arT_le p hp
      omega
    -- what is packed of the segment of `f` and of the younger ones
    have hwhole : Repacked g g' b bottom (g.arT f) g.trailTop (fun a => younger g f a = true) := by
      obtain ⟨n', m', hn', hm', hold, hmem⟩ := H.whole.of_below harH hbelow
      have hkept' : segment g'.trail g₁.trailTop m = (segment g.trail cont n).filter (fun e => !younger g f e.addr) := by
        rw [← hkept]
        exact segment_congr fun i hi _ => H.above i hi
      refine ⟨n' + n, m' + m, by omega, by omega, fun a ha => ?_, fun e he => ?_⟩
      · rw [segment_add, segment_add, ← hn', ← hm', hkept', oldest_append, oldest_append, oldest_filter fun e _ haddr => ?_,
          hold a fun ⟨p, hp, hpa⟩ => ha ((holder p hp).younger (hy ▸ hpa))]
        rw [haddr, Bool.eq_false_iff.2 ha]
        rfl
      · rw [segment_add, ← hm', hkept', mem_append, mem_filter] at he
        rw [segment_add, ← hn', mem_append]
        obtain ⟨he, hey⟩ | he := he
        · refine ⟨.inl he, Bool.eq_false_iff.2 fun hby => ?_⟩
          rw [hb.1 _ hby] at hey
          cases hey
        · exact ⟨.inr (hmem e he).1, (hmem e he).2⟩
    refine ⟨g', by rw [packQueue, hrun, Option.bind_some, hrun'], ?_⟩
    exact
      { rest := by rw [H.rest, hg₁]
        above := fun i hi => by rw [H.above i (by omega), habove i hi]
        others := fun f' hf' => by
          rw [map_cons, mem_cons, not_or] at hf'
          rw [H.others f' hf'.2, harT_ne hf'.1]
        first := fun p hp => by
          rw [List.head?_cons, Option.mem_some_iff] at hp
          subst hp
          exact hfirst
        arT_le := forall_mem_cons.2 ⟨hfirst.le, harT_le⟩
        mono := by
          rw [forall_mem_cons, forall_mem_cons]
          refine ⟨⟨fun hlt => absurd hlt (BitVec.lt_irrefl _), fun q hq hlt => ?_⟩, fun p hp => ?_⟩
          · exact absurd (BitVec.lt_trans hlt (holder q hq).lt) (BitVec.lt_irrefl _)
          · rw [forall_mem_cons]
            exact ⟨fun _ => (harT_le p hp).trans hfirst.ge, H.mono p hp⟩
        whole := hwhole.mono fun a ha => ⟨(f, cont), mem_cons_self, ha⟩
        each := by
          rw [forall_mem_cons]
          refine ⟨hfirst.symm ▸ hwhole, fun p hp => ?_⟩
          have h := H.each p hp
          rw [harT_ne (hne p hp), hy] at h
          refine h.of_below harH fun i hi => hbelow i ?_
          have := hrest.arT_le p hp
          omega }

/-! ## The choice points -/

theorem packed_sublist : (packed fs root).Sublist (fs ++ [root]) := by
  rw [packed]
  split_ifs with h
  · rw [h]
    exact List.Sublist.refl _
  · exact sublist_append_left _ _

namespace ChoiceStack

variable (C : ChoiceStack g fs root)
include C

theorem pairwise : (fs ++ [root]).Pairwise (Older g) :=
  isChain_iff_pairwise.1 (C.chain.imp fun _ _ h => h.older)

theorem packed_eq : ∃ fs', packed fs root = g.breg :: fs' := by
  have h := C.head
  cases fs with
  | nil => exact ⟨[], congrArg (· :: []) (Option.some.inj h)⟩
  | cons f fs => exact ⟨fs, congrArg (· :: fs) (Option.some.inj h)⟩

theorem arT_le : ∀ f ∈ fs ++ [root], ∃ k, g.trailUpAddr = g.arT f + 2 * k := by
  intro f hf
  obtain hf | hf := mem_append.1 hf
  · rw [← C.root_arT]
    exact ((pairwise_append.1 C.pairwise).2.2 f hf root (mem_singleton_self root)).arT
  · rw [mem_singleton.1 hf, ← C.root_arT]
    exact ⟨0, rfl⟩

theorem queue : queueChoicePoints g g.breg (g.arB g.breg) g.trailTop [] =
    some (withEnds g g.trailTop (packed fs root)).reverse := by
  cases fs with
  | nil =>
    have hroot : root = g.breg := Option.some.inj C.head
    have hB := C.root_arB
    rw [hroot] at hB
    rw [queueChoicePoints, hB, if_pos hB.symm, packed, if_pos rfl, hroot]
    rfl
  | cons f fs =>
    have hf : f = g.breg := Option.some.inj C.head
    rw [packed, if_neg (cons_ne_nil f fs), ← append_nil (List.reverse _), hf]
    exact queueChoicePoints_run (hf ▸ C.chain) C.root_arB _ _

end ChoiceStack

theorem pack_run (C : ChoiceStack g fs root) : ∃ g', packEntireTrail g = some g' ∧ ∃ hi, hi ≤ g.trailUpAddr ∧
      QueuePacked { g with trailTop := g.trailUpAddr } g' g.breg g.trailTop hi
        (withEnds g g.trailTop (packed fs root)).reverse := by
  obtain ⟨fs', hfs'⟩ := C.packed_eq
  have hpairwise := C.pairwise.sublist packed_sublist
  rw [hfs'] at hpairwise
  obtain ⟨f', hf', Q⟩ := queued_withEnds hpairwise C.top
  rw [← hfs'] at hf' Q
  obtain ⟨k, hk⟩ := C.arT_le f' (packed_sublist.subset hf')
  have hmem : ∀ p ∈ (withEnds g g.trailTop (packed fs root)).reverse, p.1 ∈ g.breg :: fs' := fun p hp => by
    rw [← hfs', ← map_withEnds g.trailTop (packed fs root)]
    exact mem_map_of_mem (mem_reverse.1 hp)
  obtain ⟨g', hrun, H⟩ := packQueue_run (g := { g with trailTop := g.trailUpAddr }) (b := g.breg)
    (Q.congr rfl fun _ _ => rfl) (show g.arT f' ≤ g.trailUpAddr by omega) fun p hp a ha => by
      obtain heq | hin := mem_cons.1 (hmem p hp)
      · rw [heq]
        exact ha
      · exact ((pairwise_cons.1 hpairwise).1 p.1 hin).younger ha
  exact ⟨g', by rw [packEntireTrail, C.queue, Option.bind_some, hrun], g.arT f', by omega, H⟩

/-! ## Undoing -/

/-- Undoing to `f` meets the same oldest entries of the cells that are older than `f`. -/
def SameOldest (g g' : State) (f : Word) : Prop :=
  ∃ n m, g.arT f = g.trailTop + 2 * n ∧ g'.arT f = g'.trailTop + 2 * m ∧ ∀ a, younger g f a = false →
    oldest Entry.addr (segment g'.trail g'.trailTop m) a = oldest Entry.addr (segment g.trail g.trailTop n) a

/-- Undoing to `f` comes to its end, before and after, and gives the same in all cells that are older than `f`. -/
def SameUndo (g g' : State) (f : Word) : Prop :=
  ∀ mem, ∃ m m', undoTrail g.trail g.trailTop (g.arT f) mem = some m ∧
    undoTrail g'.trail g'.trailTop (g'.arT f) mem = some m' ∧ ∀ a, younger g f a = false → m' a = m a

theorem SameOldest.undo {f : Word} (h : SameOldest g g' f) : SameUndo g g' f := by
  obtain ⟨n, m, hn, hm, hold⟩ := h
  intro mem
  rw [hn, hm, undoTrail_segment, undoTrail_segment]
  exact ⟨_, _, rfl, rfl, fun a ha => undo_congr Entry.addr Prod.snd (hold a ha) mem⟩

/-- `g'` has the choice points of `g`, and undoing to those that were packed meets the same oldest entries. -/
structure Kept (g g' : State) (fs : List Word) (root : Word) : Prop where
  stack : ChoiceStack g' fs root
  arH : g'.arH = g.arH
  oldest : ∀ f ∈ packed fs root, SameOldest g g' f

theorem Kept.trans {g₁ g₂ : State} (h : Kept g g₁ fs root) (h' : Kept g₁ g₂ fs root) : Kept g g₂ fs root where
  stack := h'.stack
  arH := h'.arH.trans h.arH
  oldest f hf := by
    obtain ⟨n, m, hn, hm, hold⟩ := h.oldest f hf
    obtain ⟨m', k, hm', hk, hold'⟩ := h'.oldest f hf
    obtain rfl : m = m' := by omega
    refine ⟨n, k, hn, hk, fun a ha => (hold' a ?_).trans (hold a ha)⟩
    rw [younger, h.arH]
    exact ha

theorem Thinned.kept {exempt : Entry → Prop} (C : ChoiceStack g fs root) (T : Thinned exempt g g') : Kept g g' fs root where
  stack := by
    obtain ⟨n, m, -, hm, -⟩ := T.compacts
    rw [T.rest]
    exact ⟨C.head, C.chain.imp fun _ _ h => ⟨h.arB, h.lt, h.arH, h.arT⟩, C.root_arB, C.root_arT, m, hm⟩
  arH := by rw [T.rest]
  oldest f hf := by
    have harT : g'.arT = g.arT := by rw [T.rest]
    obtain ⟨n, m, hn, hm, hc⟩ := T.compacts
    obtain ⟨k, hk⟩ : ∃ k, g.arT f = g.arT g.breg + 2 * k := by
      obtain ⟨fs', hfs'⟩ := C.packed_eq
      have hpairwise := C.pairwise.sublist packed_sublist
      rw [hfs'] at hpairwise hf
      obtain rfl | hf := mem_cons.1 hf
      · exact ⟨0, rfl⟩
      · exact ((pairwise_cons.1 hpairwise).1 f hf).arT
    refine ⟨n + k, m + k, by omega, by rw [harT]; omega, fun a _ => ?_⟩
    rw [segment_add, segment_add, ← hn, ← hm, oldest_append, oldest_append, hc.oldest_eq,
      segment_congr fun i hi _ => T.above i hi]

theorem QueuePacked.stack {hi : ℕ} (C : ChoiceStack g fs root)
    (H : QueuePacked { g with trailTop := g.trailUpAddr } g' g.breg g.trailTop hi
      (withEnds g g.trailTop (packed fs root)).reverse) : ChoiceStack g' fs root := by
  have hmem : ∀ f ∈ packed fs root, ∃ p ∈ (withEnds g g.trailTop (packed fs root)).reverse, p.1 = f := by
    intro f hf
    rw [← map_withEnds (g := g) g.trailTop (packed fs root), mem_map] at hf
    obtain ⟨p, hp, rfl⟩ := hf
    exact ⟨p, mem_reverse.2 hp, rfl⟩
  have hbreg : g'.breg = g.breg := by rw [H.rest]
  have harB : g'.arB = g.arB := by rw [H.rest]
  have harH : g'.arH = g.arH := by rw [H.rest]
  have hup : g'.trailUpAddr = g.trailUpAddr := by rw [H.rest]
  have hroot : g'.arT root = g.trailUpAddr := by
    by_cases hfs : fs = []
    · refine H.first (root, g.trailTop) ?_
      rw [packed, if_pos hfs]
      exact Option.mem_some_self _
    · rw [H.others root fun hin => ?_, C.root_arT]
      rw [map_reverse, mem_reverse, map_withEnds, packed, if_neg hfs] at hin
      exact BitVec.lt_irrefl _ ((pairwise_append.1 C.pairwise).2.2 root hin root (mem_singleton_self root)).lt
  have hcases : ∀ f ∈ fs ++ [root], f ∈ packed fs root ∨ f = root := by
    intro f hf
    obtain hf | hf := mem_append.1 hf
    · rw [packed, if_neg (ne_nil_of_mem hf)]
      exact .inl hf
    · exact .inr (mem_singleton.1 hf)
  have heven : ∀ f ∈ fs ++ [root], ∃ m, g'.arT f = g'.trailTop + 2 * m := by
    intro f hf
    obtain hf | rfl := hcases f hf
    · obtain ⟨p, hp, rfl⟩ := hmem f hf
      obtain ⟨-, m, -, hm, -⟩ := H.each p hp
      exact ⟨m, hm⟩
    · obtain ⟨-, m, -, hm, -⟩ := H.whole
      exact ⟨m, hroot.trans hm⟩
  have hmono : ∀ f ∈ fs ++ [root], ∀ f' ∈ fs ++ [root], Below g f f' → g'.arT f ≤ g'.arT f' := by
    intro f hf f' hf' h
    obtain hf | rfl := hcases f hf
    · obtain ⟨p, hp, rfl⟩ := hmem f hf
      obtain hf' | rfl := hcases f' hf'
      · obtain ⟨q, hq, rfl⟩ := hmem f' hf'
        exact H.mono p hp q hq h.lt
      · exact (H.arT_le p hp).trans hroot.ge
    · -- the oldest choice point is its own `AR_B`
      exact absurd h.lt (h.arB.symm.trans C.root_arB ▸ BitVec.lt_irrefl _)
  refine ⟨hbreg ▸ C.head, C.chain.imp_of_mem_imp fun f f' hf hf' h => ?_, harB ▸ C.root_arB, hroot.trans hup.symm, ?_⟩
  · obtain ⟨n, hn⟩ := heven f hf
    obtain ⟨m, hm⟩ := heven f' hf'
    have hle := hmono f hf f' hf' h
    exact ⟨harB ▸ h.arB, h.lt, harH ▸ h.arH, m - n, by omega⟩
  · rw [hbreg]
    obtain ⟨fs', hfs'⟩ := C.packed_eq
    exact heven g.breg (packed_sublist.subset (hfs' ▸ mem_cons_self))

theorem pack_kept (C : ChoiceStack g fs root) : ∃ g', packEntireTrail g = some g' ∧ Kept g g' fs root ∧
      g' = { g with trail := g'.trail, trailTop := g'.trailTop, arT := g'.arT } ∧
      ∃ n m, g.arT g.breg = g.trailTop + 2 * n ∧ g'.arT g.breg = g'.trailTop + 2 * m ∧
        ∀ e ∈ segment g'.trail g'.trailTop m, e ∈ segment g.trail g.trailTop n ∧ younger g g.breg e.addr = false := by
  obtain ⟨g', hrun, hi, hle, H⟩ := pack_run C
  have heach : ∀ f ∈ packed fs root,
      Repacked g g' g.breg g.trailTop (g.arT f) (g'.arT f) fun a => younger g f a = true := by
    intro f hf
    rw [← map_withEnds (g := g) g.trailTop (packed fs root), mem_map] at hf
    obtain ⟨p, hp, rfl⟩ := hf
    exact (H.each p (mem_reverse.2 hp)).of_below rfl fun _ _ => rfl
  refine ⟨g', hrun, ⟨H.stack C, by rw [H.rest], fun f hf => ?_⟩, H.rest, ?_⟩
  · obtain ⟨n, m, hn, hm, hold, -⟩ := heach f hf
    exact ⟨n, m, hn, hm, fun a ha => hold a (Bool.eq_false_iff.1 ha)⟩
  · obtain ⟨fs', hfs'⟩ := C.packed_eq
    obtain ⟨n, m, hn, hm, -, hmem⟩ := heach g.breg (hfs' ▸ mem_cons_self)
    exact ⟨n, m, hn, hm, hmem⟩

/-- The parts of the memory: the heap is below the stack, and what is trailed are cells. -/
structure Cells (g : State) : Prop where
  base : 8 ∣ g.stackLowAddr.toNat
  low : g.stackLowAddr ≤ g.arH g.breg
  high : g.heapTop < g.breg
  cell : ∀ n, g.arT g.breg = g.trailTop + 2 * n → ∀ e ∈ segment g.trail g.trailTop n, IsCell e.addr

theorem Cells.inMask (H : Cells g) {a : Word} (ha : younger g g.breg a = false) : InMask g a := by
  intro hheap
  rw [isHeapReference, Bool.and_eq_true, decide_eq_true_iff, decide_eq_true_iff] at hheap
  have hlt : a < g.arH g.breg := by
    by_contra hge
    rw [younger, decide_eq_true (show a < g.breg from Nat.lt_of_le_of_lt hheap.2 H.high),
      decide_eq_true (BitVec.not_lt.1 hge)] at ha
    cases ha
  have hlow := H.low
  rw [maskOffset, maskSize, BitVec.toNat_sub_of_le hheap.1, BitVec.toNat_sub_of_le hlow]
  have hlt' : a.toNat < (g.arH g.breg).toNat := hlt
  omega

/-- Packing and then removing duplicates, by either routine, leaves the choice points in order, and undoing to any of those
that are packed gives the same in all cells that are older than it. Of the entries for one cell the oldest one stays in the
top segment, and others only where they are exempt. It is the same with the duplicates removed first. -/
theorem trail_compaction (malloc : ℕ → Bool) (C : ChoiceStack g fs root) (H : Cells g) :
    (∃ g₁, packEntireTrail g = some g₁ ∧
      (∃ g₂, eliminateDuplicatedTrailInTopSegmentSquare g₁ = some g₂ ∧ Thinned (squareExempt g₁) g₁ g₂ ∧
        ChoiceStack g₂ fs root ∧ ∀ f ∈ packed fs root, SameUndo g g₂ f) ∧
      (malloc (maskSize g₁) = true →
        ∃ g₂, eliminateDuplicatedTrailInTopSegmentLinear g₁ malloc = some (true, g₂) ∧ Thinned (linearExempt g₁) g₁ g₂ ∧
        ChoiceStack g₂ fs root ∧ ∀ f ∈ packed fs root, SameUndo g g₂ f)) ∧
    (∃ g₁, eliminateDuplicatedTrailInTopSegmentSquare g = some g₁ ∧ Thinned (squareExempt g) g g₁ ∧
      ∃ g₂, packEntireTrail g₁ = some g₂ ∧ ChoiceStack g₂ fs root ∧ ∀ f ∈ packed fs root, SameUndo g g₂ f) ∧
    (malloc (maskSize g) = true →
      (∀ n, g.arT g.breg = g.trailTop + 2 * n → ∀ e ∈ segment g.trail g.trailTop n, InMask g e.addr) →
      ∃ g₁, eliminateDuplicatedTrailInTopSegmentLinear g malloc = some (true, g₁) ∧ Thinned (linearExempt g) g g₁ ∧
        ∃ g₂, packEntireTrail g₁ = some g₂ ∧ ChoiceStack g₂ fs root ∧ ∀ f ∈ packed fs root, SameUndo g g₂ f) := by
  obtain ⟨n, hn⟩ := C.top
  refine ⟨?_, ?_, fun hmalloc hmask => ?_⟩
  · obtain ⟨g₁, hpack, K, hrest, n', m, hn', hm, hmem⟩ := pack_kept C
    obtain rfl : n = n' := by omega
    have hbreg : g₁.breg = g.breg := by rw [hrest]
    have hlow : g₁.stackLowAddr = g.stackLowAddr := by rw [hrest]
    have hheap : g₁.heapTop = g.heapTop := by rw [hrest]
    rw [← hbreg] at hm
    refine ⟨g₁, hpack, ?_, fun hmalloc => ?_⟩
    · obtain ⟨g₂, hrun, T⟩ := square_run hm
      exact ⟨g₂, hrun, T, (T.kept K.stack).stack, fun f hf => ((K.trans (T.kept K.stack)).oldest f hf).undo⟩
    · have hcells : ∀ e ∈ segment g₁.trail g₁.trailTop m, IsCell e.addr ∧ InMask g₁ e.addr := by
        intro e he
        obtain ⟨hin, hy⟩ := hmem e he
        have h := H.inMask hy
        rw [InMask, isHeapReference, maskSize] at h ⊢
        rw [hlow, hheap, K.arH, hbreg]
        exact ⟨H.cell n hn e hin, h⟩
      obtain ⟨g₂, hrun, T⟩ := linear_run hmalloc hm (hlow ▸ H.base) hcells
      exact ⟨g₂, hrun, T, (T.kept K.stack).stack, fun f hf => ((K.trans (T.kept K.stack)).oldest f hf).undo⟩
  · obtain ⟨g₁, hrun, T⟩ := square_run hn
    have K := T.kept C
    obtain ⟨g₂, hpack, K', -⟩ := pack_kept K.stack
    exact ⟨g₁, hrun, T, g₂, hpack, K'.stack, fun f hf => ((K.trans K').oldest f hf).undo⟩
  · obtain ⟨g₁, hrun, T⟩ := linear_run hmalloc hn H.base fun e he => ⟨H.cell n hn e he, hmask n hn e he⟩
    have K := T.kept C
    obtain ⟨g₂, hpack, K', -⟩ := pack_kept K.stack
    exact ⟨g₁, hrun, T, g₂, hpack, K'.stack, fun f hf => ((K.trans K').oldest f hf).undo⟩

end

/-- Two choice points, at 1000 and 2000, and one entry, which says that the cell `a` had the value 5. -/
def oneEntry (a : Word) : State where
  breg := 1000
  sfregTop := 0
  stackLowAddr := 64
  heapTop := 160
  trailUpAddr := 10
  trailTop := 8
  trail i := if i = 9 then a else 5
  arB _ := 2000
  arH f := if f = 1000 then 80 else 64
  arT _ := 10

theorem choiceStack_oneEntry (a : Word) : ChoiceStack (oneEntry a) [1000] 2000 where
  head := rfl
  chain := isChain_pair.2 ⟨rfl, by decide, show (64 : Word) ≤ 80 by decide, 0, rfl⟩
  root_arB := rfl
  root_arT := rfl
  top := ⟨1, rfl⟩

theorem cells_oneEntry {a : Word} (ha : IsCell (untagged3 a)) : Cells (oneEntry a) where
  base := ⟨8, rfl⟩
  low := show (64 : Word) ≤ 80 by decide
  high := show (160 : Word) < 1000 by decide
  cell n hn e he := by
    obtain rfl : n = 1 := by
      change 10 = 8 + 2 * n at hn
      omega
    obtain rfl := mem_singleton.1 he
    exact ha

theorem trail_compaction_oneEntry : ∃ g₁ g₂, packEntireTrail (oneEntry 72) = some g₁ ∧
    eliminateDuplicatedTrailInTopSegmentSquare g₁ = some g₂ ∧ SameUndo (oneEntry 72) g₂ 1000 := by
  have hcell : IsCell (untagged3 72) := ⟨⟨9, rfl⟩, by decide⟩
  obtain ⟨⟨g₁, hpack, ⟨g₂, hrun, -, -, hundo⟩, -⟩, -⟩ :=
    trail_compaction (fun _ => true) (choiceStack_oneEntry 72) (cells_oneEntry hcell)
  exact ⟨g₁, g₂, hpack, hrun, hundo 1000 (mem_singleton_self _)⟩

/-- The cell at 88 is younger than the choice point at 1000, and its entry is removed. -/
theorem trail_compaction_younger :
    ¬ ∀ (g : State) (fs : List Word) (root : Word), ChoiceStack g fs root → Cells g → ∀ g₁ g₂,
      eliminateDuplicatedTrailInTopSegmentSquare g = some g₁ → packEntireTrail g₁ = some g₂ → ∀ f ∈ packed fs root, ∀ mem,
      undoTrail g₂.trail g₂.trailTop (g₂.arT f) mem = undoTrail g.trail g.trailTop (g.arT f) mem := by
  intro h
  have hcell : IsCell (untagged3 88) := ⟨⟨11, rfl⟩, by decide⟩
  obtain ⟨g₁, hrun, T⟩ := square_run (g := oneEntry 88) (n := 1) rfl
  obtain ⟨g₂, hpack, K, hrest, n, m, hn, hm, hmem⟩ := pack_kept (T.kept (choiceStack_oneEntry 88)).stack
  have heq := h _ _ _ (choiceStack_oneEntry 88) (cells_oneEntry hcell) g₁ g₂ hrun hpack 1000 (mem_singleton_self _)
    fun _ => 0
  have hbreg : g₁.breg = 1000 := by rw [T.rest]; rfl
  have harH : g₁.arH = (oneEntry 88).arH := by rw [T.rest]
  have harT : g₁.arT = (oneEntry 88).arT := by rw [T.rest]
  rw [hbreg] at hn hm hmem
  -- every entry that stays is the one for the cell at 88, which is younger
  have hnil : m = 0 := by
    obtain ⟨n', m', hn', hm', hc⟩ := T.compacts
    obtain rfl : n' = 1 := by
      change 10 = 8 + 2 * n' at hn'
      omega
    obtain rfl : n = m' := by
      rw [harT] at hn
      change 10 = g₁.trailTop + 2 * m' at hm'
      change 10 = g₁.trailTop + 2 * n at hn
      omega
    cases m with
    | zero => rfl
    | succ m =>
      obtain ⟨hin, hy⟩ := hmem _ mem_cons_self
      have haddr := mem_singleton.1 (hc.sublist.subset hin)
      rw [haddr, younger, harH] at hy
      exact absurd hy (by decide)
  subst hnil
  rw [hm, undoTrail_segment, show (oneEntry 88).arT 1000 = (oneEntry 88).trailTop + 2 * 1 from rfl, undoTrail_segment] at heq
  have hcell88 : (0 : Word) =
      undo Entry.addr Prod.snd (segment (oneEntry 88).trail (oneEntry 88).trailTop 1) (fun _ => 0) 88 :=
    congrFun (Option.some.inj heq) 88
  exact absurd hcell88 (by decide)

end Picat.Trail
