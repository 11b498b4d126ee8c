import Picat.Event.Deliver

/-!
# A run of the handler

The handler over lists in the memory does to the frames what the deliveries to the frames of these lists do, in the
order of the walk, and a general event takes the dead frames out of its list.

* `triggerOnHandler_run` : the connection of the two.
-/

namespace Picat

open Chains Function List

namespace Actors

/-! ## The trail does not matter to a delivery -/

def noTrail (s : Actors) : Actors := { s with trail := [] }

theorem noTrail_status (s : Actors) (f : ℕ) : s.noTrail.status f = s.status f := rfl

section
variable {s t : Actors} (h : s.noTrail = t.noTrail)
include h

theorem status_eq_of_noTrail (f : ℕ) : s.status f = t.status f := by
  rw [← noTrail_status, h, noTrail_status]

theorem localTop_eq_of_noTrail : s.localTop = t.localTop := by
  change s.noTrail.localTop = t.noTrail.localTop
  rw [h]

theorem frame_eq_of_noTrail : s.frame = t.frame := by
  change s.noTrail.frame = t.noTrail.frame
  rw [h]

theorem ar_eq_of_noTrail : s.ar = t.ar := by
  change s.noTrail.ar = t.noTrail.ar
  rw [h]

end

section
variable (s : Actors)
include s

theorem wakeFrame_noTrail (f : ℕ) : (s.noTrail.wakeFrame f).noTrail = (s.wakeFrame f).noTrail := by
  rw [wakeFrame, wakeFrame, apply_ite noTrail, apply_ite noTrail]
  rfl

theorem trailOut_noTrail (f elm : ℕ) : (s.trailOut f elm).noTrail = s.noTrail := by
  obtain ⟨outs, -, h⟩ := s.trailOut_eq f elm
  rw [h]
  rfl

theorem connectWokenFrameIns_noTrail (f : ℕ) :
    (s.noTrail.connectWokenFrameIns f).noTrail = (s.connectWokenFrameIns f).noTrail := by
  simp only [connectWokenFrameIns, apply_ite noTrail]
  exact if_congr Iff.rfl (congrArg (connectWokenFrame · f) (s.wakeFrame_noTrail f)) rfl

theorem connectWokenFrameMinMax_noTrail (f : ℕ) :
    (s.noTrail.connectWokenFrameMinMax f).noTrail = (s.connectWokenFrameMinMax f).noTrail := by
  simp only [connectWokenFrameMinMax, apply_ite noTrail]
  exact if_congr Iff.rfl (congrArg (connectWokenFrame · f) (s.wakeFrame_noTrail f)) rfl

theorem connectWokenFrameDom_noTrail (f elm : ℕ) :
    (s.noTrail.connectWokenFrameDom f elm).noTrail = (s.connectWokenFrameDom f elm).noTrail := by
  simp only [connectWokenFrameDom, apply_ite noTrail]
  refine if_congr Iff.rfl ?_ rfl
  exact congrArg (fun u : Actors => (u.setOut f elm).connectWokenFrame f) (s.wakeFrame_noTrail f)

theorem deliver_noTrail (seed : Option ℕ) (flag : EventFlag) (elm f : ℕ) :
    (s.noTrail.deliver seed flag elm f).noTrail = (s.deliver seed flag elm f).noTrail := by
  have hdom : ((s.noTrail.trailOut f elm).connectWokenFrameDom f elm).noTrail =
      ((s.trailOut f elm).connectWokenFrameDom f elm).noTrail := by
    rw [← connectWokenFrameDom_noTrail, ← connectWokenFrameDom_noTrail (s.trailOut f elm), trailOut_noTrail,
      trailOut_noTrail]
    rfl
  unfold deliver
  split
  · exact s.connectWokenFrameIns_noTrail f
  · exact s.connectWokenFrameIns_noTrail f
  · split_ifs
    · exact s.connectWokenFrameMinMax_noTrail f
    · rfl
  · exact hdom
  · exact hdom
  · exact hdom

end

theorem deliver_congr {s t : Actors} (h : s.noTrail = t.noTrail) (seed : Option ℕ) (flag : EventFlag) (elm f : ℕ) :
    (s.deliver seed flag elm f).noTrail = (t.deliver seed flag elm f).noTrail := by
  rw [← s.deliver_noTrail, h, t.deliver_noTrail]

/-! ## The nodes of one list -/

def visit (s : Actors) (seed : Option ℕ) (flag : EventFlag) (elm : ℕ) (fs : List ℕ) : Actors :=
  fs.foldl (fun s f => s.deliver seed flag elm f) s

variable {s t : Actors} (seed : Option ℕ) (flag : EventFlag) (elm : ℕ) (fs : List ℕ)

theorem visit_cons (f : ℕ) : s.visit seed flag elm (f :: fs) = (s.deliver seed flag elm f).visit seed flag elm fs := rfl

theorem visit_congr (h : s.noTrail = t.noTrail) :
    (s.visit seed flag elm fs).noTrail = (t.visit seed flag elm fs).noTrail := by
  induction fs generalizing s t with
  | nil => exact h
  | cons f fs ih => exact ih (deliver_congr h seed flag elm f)

theorem localTop_le_visit : s.localTop ≤ (s.visit seed flag elm fs).localTop := by
  induction fs generalizing s with
  | nil => exact le_rfl
  | cons f fs ih => exact (s.deliver_delivered seed flag elm f).localTop_le.trans ih

theorem visit_exit_iff {g : ℕ} (hg : g < s.localTop) :
    (s.visit seed flag elm fs).status g = .exit ↔ s.status g = .exit := by
  induction fs generalizing s with
  | nil => exact Iff.rfl
  | cons f fs ih =>
    have hd := s.deliver_delivered seed flag elm f
    exact (ih (hg.trans_le hd.localTop_le)).trans (hd.exit_iff hg)

theorem deliver_of_exit {f : ℕ} (h : s.status f = .exit) : (s.deliver seed flag elm f).noTrail = s.noTrail := by
  rw [(s.deliver_delivered seed flag elm f).of_exit h]
  rfl

theorem visit_filter (hfs : ∀ f ∈ fs, f < s.localTop) (keep : ℕ → Bool)
    (hkeep : ∀ f ∈ fs, keep f = false → s.status f = .exit) :
    (s.visit seed flag elm (fs.filter keep)).noTrail = (s.visit seed flag elm fs).noTrail := by
  induction fs generalizing s with
  | nil => rfl
  | cons f fs ih =>
    have hd := s.deliver_delivered seed flag elm f
    have hrest : ∀ g ∈ fs, g < s.localTop := fun g hg => hfs g (mem_cons_of_mem _ hg)
    have hrec := @ih (s.deliver seed flag elm f) (fun g hg => (hrest g hg).trans_le hd.localTop_le)
      fun g hg hk => (hd.exit_iff (hrest g hg)).2 (hkeep g (mem_cons_of_mem _ hg) hk)
    cases hf : keep f with
    | true =>
      rw [filter_cons_of_pos hf]
      exact hrec
    | false =>
      rw [filter_cons_of_neg (by simp [hf])]
      rw [visit_cons, ← hrec]
      exact visit_congr seed flag elm _ (deliver_of_exit seed flag elm (hkeep f (mem_cons_self ..) hf)).symm

end Actors

variable {fuel : ℕ} {nodes : ℕ → List ℕ}

namespace Machine

/-- The two machines differ in the frames and in the links only. -/
def SameQueue (m m' : Machine) : Prop := m' = { m with actors := m'.actors, next := m'.next }

theorem SameQueue.trans {m m' m'' : Machine} (h : m.SameQueue m') (h' : m'.SameQueue m'') : m.SameQueue m'' := by
  rw [SameQueue, h', h]

theorem visitList_eq {visit : Actors → ℕ → Actors} {op1 : Option ℕ} {nodes : List ℕ} {m : Machine}
    (h : Chain cdrSlot m.next op1 nodes) (hfuel : nodes.length ≤ fuel) :
    m.visitList fuel visit op1 = some { m with actors := (nodes.map m.car).foldl visit m.actors } := by
  induction nodes generalizing fuel op1 m with
  | nil =>
    rw [chain_nil] at h
    rw [h, visitList]
    rfl
  | cons a nodes ih =>
    obtain ⟨rfl, hrest⟩ := h
    cases fuel with
    | zero => simp at hfuel
    | succ fuel =>
      rw [visitList]
      exact ih hrest (Nat.le_of_succ_le_succ hfuel)

/-! ## The compacted list of a general event -/

/-- The slot `ptr` is made to hold `op`, which it may do already. -/
def relink (m : Machine) (ptr : ℕ) (op : Option ℕ) : Machine :=
  if m.next ptr ≠ op then m.setLink ptr (m.next ptr) op else m

section Relink
variable (m : Machine) (ptr : ℕ) (op : Option ℕ)

theorem relink_next : (m.relink ptr op).next = update m.next ptr op := by
  unfold relink
  split_ifs with h
  · rfl
  · rw [← not_not.1 h, update_eq_self]

theorem relink_noTrail : (m.relink ptr op).actors.noTrail = m.actors.noTrail := by
  unfold relink setLink
  split_ifs <;> rfl

theorem relink_sameQueue : m.SameQueue (m.relink ptr op) := by
  unfold relink setLink
  split_ifs <;> rfl

end Relink

theorem visitGeneral_spec (seed : Option ℕ) (elm : ℕ) {prevPtr : ℕ} {op1 : Option ℕ} {pending rest : List ℕ}
    {m : Machine} (keep : ℕ → Bool) (hprev : Chain cdrSlot m.next (m.next prevPtr) (pending ++ rest))
    (hop : Chain cdrSlot m.next op1 rest) (hpending : ∀ a ∈ pending, keep a = false)
    (hkeep : ∀ a ∈ rest, keep a = true ↔ m.actors.status (m.car a) ≠ .exit)
    (halloc : ∀ a ∈ rest, m.car a < m.actors.localTop) (hfuel : rest.length ≤ fuel) :
    ∃ m', m.visitGeneral fuel (fun s f => s.deliver seed .general elm f) prevPtr (m.next prevPtr) op1 = some m' ∧
      m.SameQueue m' ∧
      m'.actors.noTrail = (m.actors.visit seed .general elm ((rest.filter keep).map m.car)).noTrail ∧
      KeepsNodes cdrSlot keep m.next m'.next ∧ Chain cdrSlot m'.next (m'.next prevPtr) (rest.filter keep) ∧
      ∀ q ≠ prevPtr, (∀ a ∈ rest, cdrSlot a ≠ q) → m'.next q = m.next q := by
  induction rest generalizing fuel prevPtr op1 pending m with
  | nil =>
    have hnone : op1 = none := hop
    subst hnone
    refine ⟨m.relink prevPtr none, ?_, m.relink_sameQueue _ _, m.relink_noTrail _ _, ?_, ?_, ?_⟩
    · rw [visitGeneral]
      rfl
    · rw [relink_next]
      exact keepsNodes_update hprev hop hpending
    · rw [relink_next]
      exact hprev.skip hop
    · intro q hq _
      rw [relink_next, update_of_ne hq]
  | cons a rest ih =>
    obtain ⟨rfl, hrest⟩ := hop
    have hlt : m.car a < m.actors.localTop := halloc a (mem_cons_self ..)
    cases fuel with
    | zero => simp at hfuel
    | succ fuel =>
      have hfuel' : rest.length ≤ fuel := Nat.le_of_succ_le_succ hfuel
      rw [visitGeneral]
      cases hka : keep a with
      | false =>
        -- the dead node joins those that the next write will skip
        have hdead : m.actors.status (m.car a) = .exit := by
          by_contra hne
          rw [(hkeep a (mem_cons_self ..)).2 hne] at hka
          cases hka
        rw [if_neg (not_not.2 hdead), filter_cons_of_neg (by simp [hka])]
        obtain ⟨m', hrun, hsame, hactors, hkeeps, hchain, hframe⟩ := @ih fuel prevPtr _ (pending ++ [a]) m
          (by rwa [append_assoc]) hrest
          (fun b hb => (mem_append.1 hb).elim (hpending b) fun hb => mem_singleton.1 hb ▸ hka)
          (fun b hb => hkeep b (mem_cons_of_mem _ hb)) (fun b hb => halloc b (mem_cons_of_mem _ hb))
          hfuel'
        exact ⟨m', hrun, hsame, hactors, hkeeps, hchain, fun q hq hslot =>
          hframe q hq fun b hb => hslot b (mem_cons_of_mem _ hb)⟩
      | true =>
        have halive := (hkeep a (mem_cons_self ..)).1 hka
        rw [if_pos halive, filter_cons_of_pos hka]
        -- the link to `a` is written, then the frame of `a` is visited
        obtain ⟨m₁, hm₁⟩ : ∃ m₁, m₁ = m.relink prevPtr (some a) := ⟨_, rfl⟩
        obtain ⟨m₂, hm₂⟩ : ∃ m₂ : Machine, m₂ =
            { m₁ with actors := m₁.actors.deliver seed .general elm (m₁.car a) } := ⟨_, rfl⟩
        have hsame₁ : m.SameQueue m₁ := hm₁ ▸ m.relink_sameQueue _ _
        have hcar : m₁.car = m.car := by rw [hsame₁]
        have hsame₂ : m.SameQueue m₂ := by rw [SameQueue, hm₂, hsame₁]
        have hcar₂ : m₂.car = m.car := by rw [hsame₂]
        have hnext₂ : m₂.next = update m.next prevPtr (some a) := by
          rw [hm₂, ← m.relink_next, hm₁]
        have hactors₂ : m₂.actors.noTrail = (m.actors.deliver seed .general elm (m.car a)).noTrail := by
          rw [hm₂, hcar]
          exact Actors.deliver_congr (hm₁ ▸ m.relink_noTrail _ _) _ _ _ _
        have hd := m.actors.deliver_delivered seed .general elm (m.car a)
        have htop : m.actors.localTop ≤ m₂.actors.localTop :=
          hd.localTop_le.trans_eq (Actors.localTop_eq_of_noTrail hactors₂).symm
        have hslot : ∀ b ∈ a :: rest, cdrSlot b ≠ prevPtr := fun b hb =>
          hprev.slot_ne b (mem_append_right _ hb)
        have hsa : m₂.next (cdrSlot a) = m.next (cdrSlot a) := by
          rw [hnext₂, update_of_ne (hslot a (mem_cons_self ..))]
        have hrest₂ : Chain cdrSlot m₂.next (m₂.next (cdrSlot a)) rest := by
          rw [hsa, hnext₂]
          exact hrest.update fun b hb => hslot b (mem_cons_of_mem _ hb)
        obtain ⟨m', hrun, hsame, hactors, hkeeps, hchain, hframe⟩ := @ih fuel (cdrSlot a) _ [] m₂ hrest₂ hrest₂
          (fun _ hb => absurd hb not_mem_nil)
          (fun b hb => by
            rw [hkeep b (mem_cons_of_mem _ hb), hcar₂, Actors.status_eq_of_noTrail hactors₂]
            exact (not_congr (hd.exit_iff (halloc b (mem_cons_of_mem _ hb)))).symm)
          (fun b hb => hcar₂ ▸ (halloc b (mem_cons_of_mem _ hb)).trans_le htop) hfuel'
        refine ⟨m', ?_, hsame₂.trans hsame, ?_, ?_, ⟨?_, hchain⟩, ?_⟩
        · rw [hm₂, hm₁] at hrun
          exact hrun
        · rw [hactors, hcar₂]
          exact Actors.visit_congr _ _ _ _ hactors₂
        · refine KeepsNodes.trans ?_ hkeeps
          rw [hnext₂]
          exact keepsNodes_update hprev ⟨rfl, hrest⟩ hpending
        · rw [hframe prevPtr (fun h => hslot a (mem_cons_self ..) h.symm)
            fun b hb => hslot b (mem_cons_of_mem _ hb), hnext₂, update_self]
        · intro q hq hqs
          rw [hframe q (fun h => hqs a (mem_cons_self ..) h.symm)
            fun b hb => hqs b (mem_cons_of_mem _ hb), hnext₂, update_of_ne hq]

/-! ## One event, and the whole queue -/

/-- The event lists: `nodes i` is the list that the event `i` walks, and its frames have been allocated. -/
structure EventLists (m : Machine) (nodes : ℕ → List ℕ) : Prop where
  chain : ∀ i, 1 ≤ i → i ≤ m.triggerNo → Chain cdrSlot m.next (m.next (m.triggeredCs i)) (nodes i)
  allocated : ∀ i, 1 ≤ i → i ≤ m.triggerNo → ∀ a ∈ nodes i, m.car a < m.actors.localTop

/-- The frames attached to the list of the event `i`. -/
def attached (m : Machine) (nodes : ℕ → List ℕ) (i : ℕ) : List ℕ := (nodes i).map m.car

/-- `triggering_frame[trigger_no]`. -/
def seed (m : Machine) : Option ℕ := m.triggeringFrame m.triggerNo

/-- The deliveries of the event `i` alone. -/
def runEvent (m : Machine) (nodes : ℕ → List ℕ) (s : Actors) (i : ℕ) : Actors :=
  s.visit m.seed (m.eventFlag i) (m.eventObject i) (m.attached nodes i)

/-- The deliveries of the events `i + 1` to `trigger_no`, the last one first. -/
def runAbove (m : Machine) (nodes : ℕ → List ℕ) (i : ℕ) : Actors :=
  (List.range' (i + 1) (m.triggerNo - i)).reverse.foldl (m.runEvent nodes) m.actors

def alive (m : Machine) (a : ℕ) : Bool := decide (m.actors.status (m.car a) ≠ .exit)

theorem runAbove_triggerNo (m : Machine) (nodes : ℕ → List ℕ) : m.runAbove nodes m.triggerNo = m.actors := by
  rw [runAbove, Nat.sub_self]
  rfl

theorem runAbove_succ (m : Machine) (nodes : ℕ → List ℕ) {i : ℕ} (hi : i < m.triggerNo) :
    m.runAbove nodes i = m.runEvent nodes (m.runAbove nodes (i + 1)) (i + 1) := by
  have hsub : m.triggerNo - i = (m.triggerNo - (i + 1)) + 1 := by omega
  rw [runAbove, hsub, List.range'_succ, reverse_cons, foldl_append]
  rfl

theorem foldl_runEvent (m : Machine) (nodes : ℕ → List ℕ) (l : List ℕ) (s : Actors) :
    s.localTop ≤ (l.foldl (m.runEvent nodes) s).localTop ∧
      ∀ g < s.localTop, (l.foldl (m.runEvent nodes) s).status g = .exit ↔ s.status g = .exit := by
  induction l generalizing s with
  | nil => exact ⟨le_rfl, fun _ _ => Iff.rfl⟩
  | cons i l ih =>
    have hle : s.localTop ≤ (m.runEvent nodes s i).localTop := Actors.localTop_le_visit _ _ _ _
    obtain ⟨htop, hexit⟩ := ih (m.runEvent nodes s i)
    exact ⟨hle.trans htop, fun g hg => (hexit g (hg.trans_le hle)).trans (Actors.visit_exit_iff _ _ _ _ hg)⟩

theorem localTop_le_runAbove (m : Machine) (nodes : ℕ → List ℕ) (i : ℕ) :
    m.actors.localTop ≤ (m.runAbove nodes i).localTop := (m.foldl_runEvent nodes _ _).1

theorem runAbove_exit_iff (m : Machine) (nodes : ℕ → List ℕ) (i : ℕ) {g : ℕ} (hg : g < m.actors.localTop) :
    (m.runAbove nodes i).status g = .exit ↔ m.actors.status g = .exit := (m.foldl_runEvent nodes _ _).2 g hg

/-- What the handler has done to the memory once the events above `i` are handled. -/
structure Handled (m : Machine) (nodes : ℕ → List ℕ) (i : ℕ) (m' : Machine) : Prop where
  same : m.SameQueue m'
  actors : m'.actors.noTrail = (m.runAbove nodes i).noTrail
  keeps : KeepsNodes cdrSlot m.alive m.next m'.next
  compacted : ∀ j, i < j → j ≤ m.triggerNo → m.eventFlag j = .general →
    Chain cdrSlot m'.next (m'.next (m.triggeredCs j)) ((nodes j).filter m.alive)

theorem alive_iff (m : Machine) (a : ℕ) : m.alive a = true ↔ m.actors.status (m.car a) ≠ .exit := decide_eq_true_iff

/-- The deliveries to a list that has lost some dead nodes are those to the whole list. -/
theorem visit_sublist {m : Machine} {nodes ns : List ℕ} {s : Actors} {seed : Option ℕ} {flag : EventFlag} {elm : ℕ}
    (halloc : ∀ a ∈ nodes, m.car a < s.localTop) (hns : ns.Sublist nodes)
    (hdead : ∀ a ∈ nodes, m.alive a = false → s.status (m.car a) = .exit)
    (hfilter : ns.filter m.alive = nodes.filter m.alive) :
    (s.visit seed flag elm (ns.map m.car)).noTrail = (s.visit seed flag elm (nodes.map m.car)).noTrail := by
  have hboth : ∀ l : List ℕ, l.Sublist nodes →
      (s.visit seed flag elm ((l.filter m.alive).map m.car)).noTrail = (s.visit seed flag elm (l.map m.car)).noTrail := by
    intro l hl
    have hmap : (l.filter m.alive).map m.car = (l.map m.car).filter fun f => decide (m.actors.status f ≠ .exit) := by
      rw [filter_map]
      rfl
    rw [hmap]
    refine Actors.visit_filter seed flag elm _ ?_ _ ?_
    · intro f hf
      obtain ⟨a, ha, rfl⟩ := mem_map.1 hf
      exact halloc a (hl.subset ha)
    · intro f hf hkeep
      obtain ⟨a, ha, rfl⟩ := mem_map.1 hf
      exact hdead a (hl.subset ha) hkeep
  rw [← hboth ns hns, hfilter, hboth nodes (List.Sublist.refl _)]

theorem handleEvent_general {m : Machine} {i : ℕ} (h : m.eventFlag i = .general) :
    m.handleEvent fuel i = m.visitGeneral fuel (fun s f => s.deliver m.seed .general (m.eventObject i) f)
      (m.triggeredCs i) (m.next (m.triggeredCs i)) (m.next (m.triggeredCs i)) := by
  simp only [Machine.handleEvent, h, seed]

theorem handleEvent_of_ne {m : Machine} {i : ℕ} (h : m.eventFlag i ≠ .general) :
    m.handleEvent fuel i = m.visitList fuel (fun s f => s.deliver m.seed (m.eventFlag i) (m.eventObject i) f)
      (m.next (m.triggeredCs i)) := by
  unfold Machine.handleEvent
  cases hf : m.eventFlag i with
  | general => exact absurd hf h
  | _ => simp only [seed]

theorem Handled.handleEvent {m m' : Machine} {i : ℕ} (hl : m.EventLists nodes)
    (hfuel : (nodes (i + 1)).length ≤ fuel) (hi : i < m.triggerNo) (h : m.Handled nodes (i + 1) m') :
    ∃ m'', m'.handleEvent fuel (i + 1) = some m'' ∧ m.Handled nodes i m'' := by
  have hflag : m'.eventFlag = m.eventFlag := by rw [h.same]
  have hobj : m'.eventObject = m.eventObject := by rw [h.same]
  have hcs : m'.triggeredCs = m.triggeredCs := by rw [h.same]
  have hcar : m'.car = m.car := by rw [h.same]
  have hseed : m'.seed = m.seed := by rw [h.same]; rfl
  have halloc := hl.allocated (i + 1) (by omega) hi
  obtain ⟨ns, hns, hsub, hfilter⟩ := h.keeps _ _ (hl.chain (i + 1) (by omega) hi)
  have htop : m.actors.localTop ≤ m'.actors.localTop :=
    (m.localTop_le_runAbove nodes (i + 1)).trans_eq (Actors.localTop_eq_of_noTrail h.actors).symm
  have hstatus : ∀ a ∈ nodes (i + 1), m.alive a = true ↔ m'.actors.status (m.car a) ≠ .exit := by
    intro a ha
    rw [alive_iff, Actors.status_eq_of_noTrail h.actors]
    exact (not_congr (m.runAbove_exit_iff nodes (i + 1) (halloc a ha))).symm
  have hdead : ∀ a ∈ nodes (i + 1), m.alive a = false → m'.actors.status (m.car a) = .exit := fun a ha hk =>
    not_not.1 fun hne => by rw [(hstatus a ha).2 hne] at hk; cases hk
  have hvisit : (m.runAbove nodes i).noTrail = (m'.actors.visit m.seed (m.eventFlag (i + 1)) (m.eventObject (i + 1))
      ((nodes (i + 1)).map m.car)).noTrail := by
    rw [runAbove_succ _ _ hi]
    exact Actors.visit_congr _ _ _ _ h.actors.symm
  have hcompact : ∀ {m'' : Machine}, KeepsNodes cdrSlot m.alive m'.next m''.next → ∀ j, i + 1 < j → j ≤ m.triggerNo →
      m.eventFlag j = .general → Chain cdrSlot m''.next (m''.next (m.triggeredCs j)) ((nodes j).filter m.alive) :=
    fun hk j hj hj' hg => hk.of_forall (h.compacted j hj hj' hg) fun a ha => (mem_filter.1 ha).2
  by_cases hg : m.eventFlag (i + 1) = .general
  · obtain ⟨m'', hrun, hsame, hactors, hkeeps, hchain, -⟩ := visitGeneral_spec m.seed (m.eventObject (i + 1))
      m.alive (hns : Chain _ _ _ ([] ++ ns)) hns (fun _ ha => absurd ha not_mem_nil)
      (fun a ha => hcar ▸ hstatus a (hsub.subset ha))
      (fun a ha => hcar ▸ (halloc a (hsub.subset ha)).trans_le htop) (hsub.length_le.trans hfuel)
    refine ⟨m'', ?_, h.same.trans hsame, ?_, h.keeps.trans hkeeps, ?_⟩
    · rw [handleEvent_general (hflag ▸ hg), hcs, hseed, hobj]
      exact hrun
    · rw [hactors, hvisit, hg, hcar, hfilter]
      exact visit_sublist (fun a ha => (halloc a ha).trans_le htop) filter_sublist hdead
        (by rw [filter_filter]; simp only [Bool.and_self])
    · intro j hj hj' hgj
      by_cases hji : j = i + 1
      · subst j
        rwa [hfilter] at hchain
      · exact hcompact hkeeps j (by omega) hj' hgj
  · refine ⟨{ m' with actors := m'.actors.visit m.seed (m.eventFlag (i + 1)) (m.eventObject (i + 1)) (ns.map m.car) },
      ?_, h.same.trans rfl, ?_, h.keeps, ?_⟩
    · rw [handleEvent_of_ne (hflag ▸ hg), hcs, visitList_eq hns (hsub.length_le.trans hfuel), hflag, hobj, hseed, hcar, hcs]
      rfl
    · rw [hvisit]
      exact visit_sublist (fun a ha => (halloc a ha).trans_le htop) hsub hdead hfilter
    · intro j hj hj' hgj
      exact hcompact KeepsNodes.refl j (by by_contra hlt; exact hg ((by omega : j = i + 1) ▸ hgj)) hj' hgj

section
variable {m : Machine} (hl : m.EventLists nodes) (hfuel : ∀ i, 1 ≤ i → i ≤ m.triggerNo → (nodes i).length ≤ fuel)
include hl hfuel

theorem handleEvents_run (i : ℕ) (hi : i ≤ m.triggerNo) :
    ∃ m', (List.range' (i + 1) (m.triggerNo - i)).reverse.foldlM (handleEvent fuel) m = some m' ∧
      m.Handled nodes i m' := by
  induction hk : m.triggerNo - i generalizing i with
  | zero =>
    obtain rfl : i = m.triggerNo := by omega
    refine ⟨m, rfl, rfl, by rw [runAbove_triggerNo], KeepsNodes.refl, fun j hj hj' => by omega⟩
  | succ k ih =>
    obtain ⟨m', hrun, hm'⟩ := ih (i + 1) (by omega) (by omega)
    obtain ⟨m'', hstep, hm''⟩ := hm'.handleEvent hl (hfuel (i + 1) (by omega) (by omega)) (by omega)
    refine ⟨m'', ?_, hm''⟩
    rw [List.range'_succ, reverse_cons, foldlM_append, hrun]
    simp only [foldlM_cons, foldlM_nil, hstep, Option.bind_eq_bind, Option.bind_some, bind_pure]

theorem triggerOnHandler_run :
    ∃ m', m.triggerOnHandler fuel = some { m' with triggerNo := 0 } ∧ m.Handled nodes 0 m' := by
  obtain ⟨m', hrun, hm'⟩ := handleEvents_run hl hfuel 0 (Nat.zero_le _)
  refine ⟨m', ?_, hm'⟩
  rw [triggerOnHandler, handleEvents]
  rw [Nat.sub_zero, Nat.zero_add] at hrun
  rw [hrun]
  rfl

end

end Machine

end Picat
