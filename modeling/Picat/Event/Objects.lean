import Picat.Event.HandlerRun

/-!
# The objects of a batch

Which activations the handler creates for the events that carry an element or an object.

* `EachTaken` : every such frame is attached once, and no instantiation event has made it deaf before.
-/

namespace Picat

open Chains Function List

/-! ## Activations -/

namespace Actors

def activation (s : Actors) (seed : Option ℕ) (flag : EventFlag) (f : ℕ) : Option ℕ :=
  if (s.status f).isSleep ∧ ¬(flag = .dvarMinmax ∧ seed = some f) then some f
  else if flag.hasObject ∧ (s.status f).isRun then some (s.nextClone f)
  else none

/-- The activations that the visit of a list creates, the first one first, each with the attached frame. -/
def activations (seed : Option ℕ) (flag : EventFlag) (elm : ℕ) : Actors → List ℕ → List (ℕ × ℕ)
  | _, [] => []
  | s, f :: fs => ((s.activation seed flag f).map fun g => (f, g)).toList ++
      activations seed flag elm (s.deliver seed flag elm f) fs

end Actors

/-- A frame takes an object when it is asleep, by waking, or running, by a clone. -/
inductive Phase
  | asleep
  | running
  | deaf
  deriving DecidableEq

def SuspStatus.phase : SuspStatus → Phase
  | sleep _ => .asleep
  | run _ => .running
  | _ => .deaf

namespace Phase

def receive : Phase → EventFlag → Phase
  | asleep, _ => running
  | running, flag => if flag.isIns then deaf else running
  | deaf, _ => deaf

theorem foldl_receive_deaf (flags : List EventFlag) : flags.foldl receive deaf = deaf := by
  induction flags with
  | nil => rfl
  | cons flag flags ih => exact ih

theorem foldl_receive_running (flags : List EventFlag) :
    flags.foldl receive running ≠ deaf ↔ ∀ flag ∈ flags, flag.isIns = false := by
  induction flags with
  | nil => exact ⟨fun _ _ h => absurd h not_mem_nil, fun _ => Phase.noConfusion⟩
  | cons flag flags ih =>
    rw [foldl_cons, forall_mem_cons]
    cases hins : flag.isIns with
    | true =>
      rw [receive, if_pos hins, foldl_receive_deaf]
      exact ⟨fun h => absurd rfl h, fun h => Bool.noConfusion h.1⟩
    | false =>
      rw [receive, if_neg (by simp [hins]), ih]
      exact ⟨fun h => ⟨rfl, h⟩, fun h => h.2⟩

theorem foldl_receive_asleep (flags : List EventFlag) :
    flags.foldl receive asleep ≠ deaf ↔ ∀ flag ∈ flags.tail, flag.isIns = false := by
  cases flags with
  | nil => exact ⟨fun _ _ h => absurd h not_mem_nil, fun _ => Phase.noConfusion⟩
  | cons flag flags => exact foldl_receive_running flags

end Phase

namespace Delivered

variable {seed : Option ℕ} {flag : EventFlag} {elm f g : ℕ} {s s' : Actors}

section
variable (h : Delivered seed flag elm f s s')
include h

theorem phase_eq (hf : f < s.localTop) (hreach : flag.Reaches seed f) :
    (s'.status f).phase = (s.status f).phase.receive flag := by
  cases h with
  | wokenTrailed _ _ _ _ hsleep _ _ h =>
    subst s'
    rw [hsleep]
    simp only [Actors.status, update_self, SuspStatus.phase, Phase.receive]
  | wokenUntrailed _ _ _ _ hsleep _ h =>
    subst s'
    rw [hsleep]
    simp only [Actors.status, update_self, SuspStatus.phase, Phase.receive]
  | reentered hins hsleep _ h =>
    subst s'
    simp only [Actors.status, Actors.setStatus, update_self] at hsleep ⊢
    cases hst : (s.frame f).status <;> rw [hst] at hsleep <;>
      simp_all [SuspStatus.phase, Phase.receive, SuspStatus.markReent, SuspStatus.isSleep, SuspStatus.stamp]
  | cloned _ _ hobj hrun h =>
    subst s'
    obtain ⟨stamp, hst⟩ := SuspStatus.isRun_iff.1 hrun
    have hins := EventFlag.isIns_of_hasObject hobj
    simp only [Actors.status, update_of_ne (Actors.ne_nextClone hf f)] at hst ⊢
    rw [hst]
    simp [SuspStatus.phase, Phase.receive, hins]
  | ignored _ _ hsleep hins hrun h =>
    subst s'
    have hs := hsleep hreach
    change (s.status f).phase = _
    cases hst : s.status f with
    | sleep stamp => rw [hst] at hs; cases hs
    | run stamp =>
      have hnot : flag.isIns = false := by
        by_contra hne
        have := hins (by simpa using hne)
        rw [hst] at this
        cases this
      simp [SuspStatus.phase, Phase.receive, hnot]
    | _ => rfl

theorem phase_of_not_reaches (hreach : ¬flag.Reaches seed f) : s'.status f = s.status f := by
  have hflag : flag = .dvarMinmax := by
    by_contra hne
    exact hreach fun heq => absurd heq hne
  cases h with
  | wokenTrailed _ _ _ hr => exact absurd hr hreach
  | wokenUntrailed _ _ _ hr => exact absurd hr hreach
  | reentered hins _ _ _ => rw [hflag] at hins; cases hins
  | cloned _ _ hobj _ _ => rw [hflag] at hobj; cases hobj
  | ignored _ _ _ _ _ h => subst s'; rfl

theorem ar_eq : s'.ar = (s.activation seed flag f).toList ++ s.ar := by
  unfold Actors.activation
  cases h with
  | wokenTrailed _ _ _ hreach hsleep _ _ h =>
    rw [if_pos ⟨by rw [hsleep]; rfl, fun hs => hreach hs.1 hs.2⟩, h]
    rfl
  | wokenUntrailed _ _ _ hreach hsleep _ h =>
    rw [if_pos ⟨by rw [hsleep]; rfl, fun hs => hreach hs.1 hs.2⟩, h]
    rfl
  | reentered hins hsleep _ h =>
    rw [if_neg (by simp [hsleep]), if_neg (by simp [EventFlag.hasObject_of_isIns hins]), h]
    rfl
  | cloned _ _ hobj hrun h =>
    obtain ⟨stamp, hst⟩ := SuspStatus.isRun_iff.1 hrun
    rw [if_neg (by simp [hst, SuspStatus.isSleep]), if_pos ⟨hobj, hrun⟩, h]
    rfl
  | ignored _ _ hsleep _ hrun h =>
    have hnot : ¬((s.status f).isSleep = true ∧ ¬(flag = .dvarMinmax ∧ seed = some f)) := by
      intro h
      have hs := h.1
      rw [hsleep fun hflag hseed => h.2 ⟨hflag, hseed⟩] at hs
      cases hs
    have hnot' : ¬(flag.hasObject = true ∧ (s.status f).isRun = true) := by
      intro h
      have hr := h.2
      rw [hrun h.1] at hr
      cases hr
    rw [if_neg hnot, if_neg hnot', h]
    rfl

end

end Delivered

namespace Actors

variable {s : Actors} (seed : Option ℕ) (flag : EventFlag) (elm : ℕ) (fs : List ℕ)

theorem visit_ar : (s.visit seed flag elm fs).ar = ((activations seed flag elm s fs).map Prod.snd).reverse ++ s.ar := by
  induction fs generalizing s with
  | nil => rfl
  | cons f fs ih =>
    rw [visit_cons, ih, (s.deliver_delivered seed flag elm f).ar_eq, activations, List.map_append,
      reverse_append, append_assoc]
    cases s.activation seed flag f <;> rfl

/-- As many activations stand for a frame as it has nodes on the list, or none when it is deaf. -/
theorem activations_count (hobj : flag.hasObject = true) {f : ℕ} (hf : f < s.localTop) :
    ((activations seed flag elm s fs).map Prod.fst).count f = if (s.status f).phase = .deaf then 0 else fs.count f := by
  have hins := EventFlag.isIns_of_hasObject hobj
  have hflag : ∀ g, flag.Reaches seed g := fun g h => by rw [h] at hobj; cases hobj
  induction fs generalizing s with
  | nil => simp [activations]
  | cons g fs ih =>
    have hd := s.deliver_delivered seed flag elm g
    rw [activations, List.map_append, count_append, ih (hf.trans_le hd.localTop_le)]
    by_cases hgf : g = f
    · subst g
      rw [hd.phase_eq hf (hflag f), count_cons_self]
      have hnot : ¬(flag = .dvarMinmax ∧ seed = some f) := fun ⟨h, _⟩ => by rw [h] at hobj; cases hobj
      cases hst : s.status f with
      | sleep stamp =>
        have hact : s.activation seed flag f = some f := if_pos ⟨by rw [hst]; rfl, hnot⟩
        simp [hact, SuspStatus.phase, Phase.receive, Nat.add_comm]
      | run stamp =>
        have hact : s.activation seed flag f = some (s.nextClone f) := by
          rw [activation, hst, if_neg (by simp [SuspStatus.isSleep])]
          exact if_pos ⟨hobj, rfl⟩
        simp [hact, SuspStatus.phase, Phase.receive, hins, Nat.add_comm]
      | _ =>
        have hact : s.activation seed flag f = none := by
          rw [activation, hst, if_neg (by simp [SuspStatus.isSleep])]
          exact if_neg (by simp [SuspStatus.isRun])
        simp [hact, SuspStatus.phase, Phase.receive]
    · have hst : (s.deliver seed flag elm g).status f = s.status f :=
        congrArg SuspFrame.status (hd.frame_of_ne hf (Ne.symm hgf))
      rw [hst, count_cons_of_ne hgf]
      have hzero : (List.map Prod.fst ((s.activation seed flag g).map fun k => (g, k)).toList).count f = 0 := by
        cases s.activation seed flag g with
        | none => rfl
        | some k => simp [hgf]
      rw [hzero, Nat.zero_add]

/-- The activation carries this object, and no delivery can take it away. -/
structure Carries (s : Actors) (g elm : ℕ) : Prop where
  lt : g < s.localTop
  out : (s.frame g).out = elm
  awake : (s.status g).isSleep = false

end Actors

def SuspFrame.cloneWith (fr : SuspFrame) (elm : ℕ) : SuspFrame := { fr with status := .clone, out := elm }

namespace Delivered

variable {seed : Option ℕ} {flag : EventFlag} {elm f g o : ℕ} {s s' : Actors}

section
variable (h : Delivered seed flag elm f s s')
include h

theorem carries (hg : s.Carries g o) : s'.Carries g o := by
  refine ⟨hg.lt.trans_le h.localTop_le, ?_, ?_⟩ <;> by_cases hgf : g = f
  · subst g
    have hawake := hg.awake
    cases h with
    | wokenTrailed _ _ _ _ hsleep _ _ h => rw [hsleep] at hawake; cases hawake
    | wokenUntrailed _ _ _ _ hsleep _ h => rw [hsleep] at hawake; cases hawake
    | reentered _ _ _ h =>
      subst s'
      simp only [Actors.setStatus, update_self]
      exact hg.out
    | cloned _ _ _ _ h =>
      subst s'
      simp only [update_of_ne (Actors.ne_nextClone hg.lt f)]
      exact hg.out
    | ignored _ _ _ _ _ h => subst s'; exact hg.out
  · rw [h.frame_of_ne hg.lt hgf]
    exact hg.out
  · subst g
    have hawake := hg.awake
    cases h with
    | wokenTrailed _ _ _ _ hsleep _ _ h => rw [hsleep] at hawake; cases hawake
    | wokenUntrailed _ _ _ _ hsleep _ h => rw [hsleep] at hawake; cases hawake
    | reentered _ _ _ h =>
      subst s'
      simp only [Actors.status, Actors.setStatus, update_self]
      cases (s.frame f).status <;> rfl
    | cloned _ _ _ _ h =>
      subst s'
      simp only [Actors.status, update_of_ne (Actors.ne_nextClone hg.lt f)]
      exact hawake
    | ignored _ _ _ _ _ h => subst s'; exact hawake
  · rw [Actors.status, h.frame_of_ne hg.lt hgf]
    exact hg.awake

theorem carries_woken (hobj : flag.hasObject = true)
    (hs : (s.status f).isSleep = true) (hf : f < s.localTop) : s'.Carries f elm := by
  have hreach : flag.Reaches seed f := fun hflag => by rw [hflag] at hobj; cases hobj
  refine ⟨hf.trans_le h.localTop_le, ?_, ?_⟩
  · cases h with
    | wokenTrailed _ _ _ _ _ _ _ h =>
      subst s'
      simp only [update_self, SuspFrame.outAfter, if_pos hobj]
    | wokenUntrailed _ _ _ _ _ _ h =>
      subst s'
      simp only [update_self, SuspFrame.outAfter, if_pos hobj]
    | reentered hins _ _ _ => rw [EventFlag.hasObject_of_isIns hins] at hobj; cases hobj
    | cloned _ _ _ hrun _ =>
      obtain ⟨stamp, hst⟩ := SuspStatus.isSleep_iff.1 hs
      rw [hst] at hrun
      cases hrun
    | ignored _ _ hsleep _ _ _ => rw [hsleep hreach] at hs; cases hs
  · obtain ⟨stamp, hst⟩ := SuspStatus.isSleep_iff.1 hs
    have hphase := h.phase_eq hf hreach
    rw [hst] at hphase
    cases hst' : s'.status f <;> rw [hst'] at hphase <;> first | rfl | cases hphase

theorem carries_clone (hobj : flag.hasObject = true) (hrun : (s.status f).isRun = true) :
    s'.Carries (s.nextClone f) elm ∧ s'.frame (s.nextClone f) = (s.frame f).cloneWith elm := by
  obtain ⟨stamp, hst⟩ := SuspStatus.isRun_iff.1 hrun
  cases h with
  | wokenTrailed _ _ _ _ hsleep _ _ _ => rw [hst] at hsleep; cases hsleep
  | wokenUntrailed _ _ _ _ hsleep _ _ => rw [hst] at hsleep; cases hsleep
  | reentered hins _ _ _ => rw [EventFlag.hasObject_of_isIns hins] at hobj; cases hobj
  | cloned _ _ _ _ h =>
    subst s'
    refine ⟨⟨?_, ?_, ?_⟩, ?_⟩
    · dsimp only [suspFrameSize]
      omega
    · simp only [update_self]
    · simp only [Actors.status, update_self]
      rfl
    · simp only [update_self, SuspFrame.cloneWith]
  | ignored _ _ _ _ hr _ => rw [hr hobj] at hrun; cases hrun

theorem cloneWith_eq (hg : g < s.localTop) : (s'.frame g).cloneWith o = (s.frame g).cloneWith o := by
  by_cases hgf : g = f
  · subst g
    cases h with
    | cloned _ _ _ _ h => subst s'; simp only [update_of_ne (Actors.ne_nextClone hg f)]
    | ignored _ _ _ _ _ h => subst s'; rfl
    | _ => subst s'; simp only [SuspFrame.cloneWith, Actors.setStatus, update_self]
  · rw [h.frame_of_ne hg hgf]

end

end Delivered

namespace Actors

variable {s : Actors} (seed : Option ℕ) (flag : EventFlag) (elm : ℕ) (fs : List ℕ) {g o : ℕ}

theorem visit_carries (hg : s.Carries g o) : (s.visit seed flag elm fs).Carries g o := by
  induction fs generalizing s with
  | nil => exact hg
  | cons f fs ih => exact ih ((s.deliver_delivered seed flag elm f).carries hg)

theorem visit_cloneWith (hg : g < s.localTop) :
    ((s.visit seed flag elm fs).frame g).cloneWith o = (s.frame g).cloneWith o := by
  induction fs generalizing s with
  | nil => rfl
  | cons f fs ih =>
    have hd := s.deliver_delivered seed flag elm f
    exact (ih (hg.trans_le hd.localTop_le)).trans (hd.cloneWith_eq hg)

theorem visit_frame_of_not_mem (hg : g < s.localTop) (hmem : g ∉ fs) : (s.visit seed flag elm fs).frame g = s.frame g := by
  induction fs generalizing s with
  | nil => rfl
  | cons f fs ih =>
    have hd := s.deliver_delivered seed flag elm f
    exact (ih (hg.trans_le hd.localTop_le) fun h => hmem (mem_cons_of_mem _ h)).trans
      (hd.frame_of_ne hg fun h => hmem (h ▸ mem_cons_self ..))

theorem mem_of_mem_activations {f : ℕ} (h : (f, g) ∈ activations seed flag elm s fs) : f ∈ fs := by
  induction fs generalizing s with
  | nil => cases h
  | cons k fs ih =>
    rw [activations, mem_append] at h
    rcases h with h | h
    · obtain ⟨g', -, heq⟩ := Option.map_eq_some_iff.1 (Option.mem_toList.1 h)
      exact (Prod.mk.inj heq).1 ▸ mem_cons_self ..
    · exact mem_cons_of_mem _ (ih h)

/-- An activation carries the object of its event; it is the attached frame itself or a clone above all old frames. -/
theorem activations_mem (hobj : flag.hasObject = true) {base : ℕ} (hfs : ∀ f ∈ fs, f < base) (hbase : base ≤ s.localTop)
    {f : ℕ} (h : (f, g) ∈ activations seed flag elm s fs) :
    (s.visit seed flag elm fs).Carries g elm ∧
      (g = f ∨ base ≤ g ∧ (s.visit seed flag elm fs).frame g = (s.frame f).cloneWith elm) := by
  induction fs generalizing s with
  | nil => cases h
  | cons k fs ih =>
    have hd := s.deliver_delivered seed flag elm k
    have hrest : ∀ f ∈ fs, f < base := fun f hf => hfs f (mem_cons_of_mem _ hf)
    have hk : k < s.localTop := (hfs k (mem_cons_self ..)).trans_le hbase
    rw [activations, mem_append] at h
    rcases h with h | h
    · -- the first node is the one that is activated
      obtain ⟨g', hg', heq⟩ := Option.map_eq_some_iff.1 (Option.mem_toList.1 h)
      obtain ⟨rfl, rfl⟩ := Prod.mk.inj heq
      rw [visit_cons]
      unfold activation at hg'
      split_ifs at hg' with hsleep hrun
      · obtain rfl := Option.some.inj hg'
        exact ⟨visit_carries seed flag elm fs (hd.carries_woken hobj hsleep.1 hk), .inl rfl⟩
      · obtain rfl := Option.some.inj hg'
        obtain ⟨hcarries, hframe⟩ := hd.carries_clone hobj hrun.2
        have hle : base ≤ s.nextClone k := hbase.trans (Nat.le_add_right _ _)
        refine ⟨visit_carries seed flag elm fs hcarries, .inr ⟨hle, ?_⟩⟩
        rw [visit_frame_of_not_mem seed flag elm fs hcarries.lt fun hmem => absurd (hrest _ hmem) (by omega), hframe]
    · obtain ⟨hcarries, hcase⟩ := ih hrest (hbase.trans hd.localTop_le) h
      refine ⟨hcarries, hcase.imp_right fun ⟨hle, hframe⟩ => ⟨hle, ?_⟩⟩
      have hf : f < s.localTop := (hrest f (mem_of_mem_activations seed flag elm fs h)).trans_le hbase
      rw [visit_cons, hframe, hd.cloneWith_eq hf]

end Actors

/-! ## What has reached a frame when an event is handled -/

namespace Actors

variable {s : Actors} (seed : Option ℕ) (flag : EventFlag) (elm : ℕ) (fs : List ℕ) {f : ℕ}

/-- The events that a list hands to the frame: one for each of its nodes, unless the last slot names the frame. -/
def handed (f : ℕ) : List EventFlag :=
  if flag = .dvarMinmax ∧ seed = some f then [] else List.replicate (fs.count f) flag

theorem visit_phase (hf : f < s.localTop) :
    ((s.visit seed flag elm fs).status f).phase = (handed seed flag fs f).foldl Phase.receive (s.status f).phase := by
  unfold handed
  split_ifs with hskip
  · have hnot : ¬flag.Reaches seed f := fun hr => hr hskip.1 hskip.2
    rw [foldl_nil]
    congr 1
    induction fs generalizing s with
    | nil => rfl
    | cons g fs ih =>
      have hd := s.deliver_delivered seed flag elm g
      apply (ih (hf.trans_le hd.localTop_le)).trans
      by_cases hgf : g = f
      · subst g
        exact hd.phase_of_not_reaches hnot
      · exact congrArg SuspFrame.status (hd.frame_of_ne hf (Ne.symm hgf))
  · have hreach : flag.Reaches seed f := fun hflag hs => hskip ⟨hflag, hs⟩
    induction fs generalizing s with
    | nil => rfl
    | cons g fs ih =>
      have hd := s.deliver_delivered seed flag elm g
      apply (ih (hf.trans_le hd.localTop_le)).trans
      by_cases hgf : g = f
      · subst g
        rw [hd.phase_eq hf hreach, count_cons_self, replicate_succ, foldl_cons]
      · rw [count_cons_of_ne hgf, show (s.deliver seed flag elm g).status f = s.status f from
          congrArg SuspFrame.status (hd.frame_of_ne hf (Ne.symm hgf))]

end Actors

namespace Machine

variable {m : Machine} {nodes : ℕ → List ℕ} {f : ℕ}

/-- The events above `i` that reach the frame, in the order in which they are handled: the last posted first. -/
def handedAbove (m : Machine) (nodes : ℕ → List ℕ) (i f : ℕ) : List EventFlag :=
  (List.range' (i + 1) (m.triggerNo - i)).reverse.flatMap fun j =>
    Actors.handed m.seed (m.eventFlag j) (m.attached nodes j) f

theorem runAbove_phase (hf : f < m.actors.localTop) (i : ℕ) :
    ((m.runAbove nodes i).status f).phase = (m.handedAbove nodes i f).foldl Phase.receive (m.actors.status f).phase := by
  have hfold : ∀ (l : List ℕ) (s : Actors), f < s.localTop → ((l.foldl (m.runEvent nodes) s).status f).phase =
      (l.flatMap fun j => Actors.handed m.seed (m.eventFlag j) (m.attached nodes j) f).foldl Phase.receive
        (s.status f).phase := by
    intro l
    induction l with
    | nil => exact fun _ _ => rfl
    | cons j l ih =>
      intro s hs
      have hle : s.localTop ≤ (m.runEvent nodes s j).localTop := Actors.localTop_le_visit _ _ _ _
      rw [foldl_cons, ih _ (hs.trans_le hle), flatMap_cons, foldl_append, runEvent, Actors.visit_phase _ _ _ _ hs]
  exact hfold _ _ hf

/-- The activations that the event `i` creates. -/
def activationsOf (m : Machine) (nodes : ℕ → List ℕ) (i : ℕ) : List (ℕ × ℕ) :=
  Actors.activations m.seed (m.eventFlag i) (m.eventObject i) (m.runAbove nodes i) (m.attached nodes i)

theorem runAbove_ar (i : ℕ) (hi : i ≤ m.triggerNo) : (m.runAbove nodes i).ar =
    (List.range' (i + 1) (m.triggerNo - i)).flatMap (fun j => ((m.activationsOf nodes j).map Prod.snd).reverse) ++
      m.actors.ar := by
  induction hk : m.triggerNo - i generalizing i with
  | zero =>
    obtain rfl : i = m.triggerNo := by omega
    rw [runAbove_triggerNo]
    rfl
  | succ k ih =>
    rw [runAbove_succ _ _ (by omega), runEvent, Actors.visit_ar, ih (i + 1) (by omega) (by omega), List.range'_succ,
      flatMap_cons, append_assoc]
    rfl

end Machine

/-! ## Every object reaches every actor once -/

/-- For an event with an object and a frame attached to its port that is neither dead nor a clone, there is exactly one
activation: the frame itself or a clone of it, which carries the object. -/
def ObjectsOnce (m m' : Machine) (nodes : ℕ → List ℕ) : Prop :=
  ∀ i, 1 ≤ i → i ≤ m.triggerNo → (m.eventFlag i).hasObject = true → ∀ f ∈ m.attached nodes i,
    m.actors.status f ≠ .exit → m.actors.status f ≠ .clone →
      ∃ g, (m.activationsOf nodes i).filter (fun a => a.1 = f) = [(f, g)] ∧ (m'.actors.frame g).out = m.eventObject i ∧
        (g = f ∨ m.actors.localTop ≤ g ∧ m'.actors.frame g = (m.actors.frame f).cloneWith (m.eventObject i))

/-- The chain, from its top: the activations of the first event posted, those of the second, and so on. -/
def InOrder (m m' : Machine) (nodes : ℕ → List ℕ) : Prop :=
  m'.actors.ar =
    (List.range' 1 m.triggerNo).flatMap (fun j => ((m.activationsOf nodes j).map Prod.snd).reverse) ++ m.actors.ar

/-- The list of a general event has lost the nodes of dead frames and no others. -/
def Compacted (m m' : Machine) (nodes : ℕ → List ℕ) : Prop :=
  ∀ i, 1 ≤ i → i ≤ m.triggerNo → m.eventFlag i = .general →
    Chain cdrSlot m'.next (m'.next (m.triggeredCs i)) ((nodes i).filter m.alive)

/-- Every frame that is owed an object is attached once; a running one has not been marked by an instantiation event
handled before, and a sleeping one by no such event but the one that woke it. -/
def EachTaken (m : Machine) (nodes : ℕ → List ℕ) : Prop :=
  ∀ i, 1 ≤ i → i ≤ m.triggerNo → (m.eventFlag i).hasObject = true → ∀ f ∈ m.attached nodes i,
    m.actors.status f ≠ .exit → m.actors.status f ≠ .clone → (m.attached nodes i).count f = 1 ∧
      match m.actors.status f with
      | .run _ => ∀ flag ∈ m.handedAbove nodes i f, flag.isIns = false
      | .sleep _ => ∀ flag ∈ (m.handedAbove nodes i f).tail, flag.isIns = false
      | _ => False

namespace Machine

variable {m : Machine} {nodes : ℕ → List ℕ} {f : ℕ}

theorem runAbove_keeps (P : Actors → Prop)
    (hstep : ∀ j, 1 ≤ j → j ≤ m.triggerNo → ∀ s, P s → P (m.runEvent nodes s j)) {i k : ℕ} (hi : i ≤ m.triggerNo)
    (hk : k ≤ i) (h : P (m.runAbove nodes i)) : P (m.runAbove nodes k) := by
  induction hd : i - k generalizing k with
  | zero =>
    obtain rfl : k = i := by omega
    exact h
  | succ d ih =>
    rw [runAbove_succ _ _ (by omega)]
    exact hstep (k + 1) (by omega) (by omega) _ (ih (by omega) (by omega))

theorem EventLists.attached_lt (hl : m.EventLists nodes) {i : ℕ} (hi : 1 ≤ i) (hi' : i ≤ m.triggerNo)
    (hf : f ∈ m.attached nodes i) : f < m.actors.localTop := by
  obtain ⟨a, ha, rfl⟩ := mem_map.1 hf
  exact hl.allocated i hi hi' a ha

theorem phase_ne_deaf_iff (hf : f < m.actors.localTop) (i : ℕ) : ((m.runAbove nodes i).status f).phase ≠ .deaf ↔
      match m.actors.status f with
      | .run _ => ∀ flag ∈ m.handedAbove nodes i f, flag.isIns = false
      | .sleep _ => ∀ flag ∈ (m.handedAbove nodes i f).tail, flag.isIns = false
      | _ => False := by
  rw [runAbove_phase hf]
  cases hst : m.actors.status f with
  | run stamp => exact Phase.foldl_receive_running _
  | sleep stamp => exact Phase.foldl_receive_asleep _
  | _ => exact iff_of_false (not_not.2 (Phase.foldl_receive_deaf _)) id

theorem activationsOf_mem (hl : m.EventLists nodes) {i : ℕ} (hi : 1 ≤ i) (hi' : i ≤ m.triggerNo)
    (hobj : (m.eventFlag i).hasObject = true) {g : ℕ} (h : (f, g) ∈ m.activationsOf nodes i) :
    ((m.runAbove nodes 0).frame g).out = m.eventObject i ∧ (g = f ∨ m.actors.localTop ≤ g ∧
        (m.runAbove nodes 0).frame g = (m.actors.frame f).cloneWith (m.eventObject i)) := by
  obtain ⟨k, rfl⟩ : ∃ k, i = k + 1 := ⟨i - 1, by omega⟩
  have hattached : ∀ {j}, 1 ≤ j → j ≤ m.triggerNo → ∀ f ∈ m.attached nodes j, f < m.actors.localTop :=
    fun hj hj' _ hf => hl.attached_lt hj hj' hf
  have hf : f < m.actors.localTop := hattached hi hi' f (Actors.mem_of_mem_activations _ _ _ _ h)
  obtain ⟨hcarries, hcase⟩ := Actors.activations_mem _ _ _ _ hobj (hattached hi hi')
    (m.localTop_le_runAbove nodes (k + 1)) h
  have hclone : ((m.runAbove nodes (k + 1)).frame f).cloneWith (m.eventObject (k + 1)) =
      (m.actors.frame f).cloneWith (m.eventObject (k + 1)) := by
    have hkeeps := @runAbove_keeps m nodes (fun s => f < s.localTop ∧
      (s.frame f).cloneWith (m.eventObject (k + 1)) = (m.actors.frame f).cloneWith (m.eventObject (k + 1)))
      (fun j _ _ s hs => ⟨hs.1.trans_le (Actors.localTop_le_visit _ _ _ _),
        (Actors.visit_cloneWith _ _ _ _ hs.1).trans hs.2⟩) _ _ le_rfl hi'
    rw [runAbove_triggerNo] at hkeeps
    exact (hkeeps ⟨hf, rfl⟩).2
  rw [hclone] at hcase
  have hafter : (m.runAbove nodes k).Carries g (m.eventObject (k + 1)) ∧ (g = f ∨ m.actors.localTop ≤ g ∧
      (m.runAbove nodes k).frame g = (m.actors.frame f).cloneWith (m.eventObject (k + 1))) := by
    rw [runAbove_succ _ _ (by omega)]
    exact ⟨hcarries, hcase⟩
  have hend := @runAbove_keeps m nodes (fun s => s.Carries g (m.eventObject (k + 1)) ∧
    (g = f ∨ m.actors.localTop ≤ g ∧ s.frame g = (m.actors.frame f).cloneWith (m.eventObject (k + 1))))
    (fun j hj hj' s hs => ⟨Actors.visit_carries _ _ _ _ hs.1, hs.2.imp_right fun ⟨hle, hframe⟩ => ⟨hle, by
      rw [runEvent, Actors.visit_frame_of_not_mem _ _ _ _ hs.1.lt fun hmem =>
        absurd (hattached hj hj' g hmem) (by omega), hframe]⟩⟩) _ _ (by omega) (Nat.zero_le k) hafter
  exact ⟨hend.1.out, hend.2⟩

end Machine

/-- The handler gives every object to every actor once, in the order of posting, exactly when every frame that is owed
an object is attached once and open to it; the order and the compaction of the lists are right in any case. -/
theorem eventObjects_once_iff {m : Machine} {nodes : ℕ → List ℕ} {fuel : ℕ} (hl : m.EventLists nodes)
    (hfuel : ∀ i, 1 ≤ i → i ≤ m.triggerNo → (nodes i).length ≤ fuel) :
    ∃ m', m.triggerOnHandler fuel = some m' ∧
      (ObjectsOnce m m' nodes ∧ InOrder m m' nodes ∧ Compacted m m' nodes ↔ EachTaken m nodes) := by
  obtain ⟨m', hrun, hhandled⟩ := Machine.triggerOnHandler_run hl hfuel
  refine ⟨{ m' with triggerNo := 0 }, hrun, ?_⟩
  have hframe : m'.actors.frame = (m.runAbove nodes 0).frame := Actors.frame_eq_of_noTrail hhandled.actors
  have hcount : ∀ {i f}, 1 ≤ i → i ≤ m.triggerNo → (m.eventFlag i).hasObject = true → f ∈ m.attached nodes i →
      ((m.activationsOf nodes i).map Prod.fst).count f =
        if ((m.runAbove nodes i).status f).phase = .deaf then 0 else (m.attached nodes i).count f :=
    fun {i f} hi hi' hobj hf => Actors.activations_count _ _ _ _ hobj
      ((hl.attached_lt hi hi' hf).trans_le (m.localTop_le_runAbove nodes i))
  have hfilter : ∀ i f, ((m.activationsOf nodes i).filter fun a => a.1 = f).length =
      ((m.activationsOf nodes i).map Prod.fst).count f := fun i f => by
    rw [List.count, countP_map, countP_eq_length_filter]
    rfl
  constructor
  · rintro ⟨honce, -, -⟩ i hi hi' hobj f hf hexit hclone
    obtain ⟨g, hg, -⟩ := honce i hi hi' hobj f hf hexit hclone
    have hone := hcount hi hi' hobj hf
    rw [← hfilter, hg, length_singleton] at hone
    split_ifs at hone with hdeaf
    exact ⟨hone.symm, (Machine.phase_ne_deaf_iff (hl.attached_lt hi hi' hf) i).1 hdeaf⟩
  · intro htaken
    refine ⟨fun i hi hi' hobj f hf hexit hclone => ?_, ?_, fun i hi hi' hgen => hhandled.compacted i hi hi' hgen⟩
    · obtain ⟨hattached, hopen⟩ := htaken i hi hi' hobj f hf hexit hclone
      have hone := hcount hi hi' hobj hf
      rw [if_neg ((Machine.phase_ne_deaf_iff (hl.attached_lt hi hi' hf) i).2 hopen), hattached, ← hfilter] at hone
      obtain ⟨⟨f', g⟩, hg⟩ := length_eq_one_iff.1 hone
      have hmem : (f', g) ∈ (m.activationsOf nodes i).filter fun a => a.1 = f := hg ▸ mem_singleton.2 rfl
      obtain ⟨hact, hf'⟩ := mem_filter.1 hmem
      obtain rfl : f' = f := of_decide_eq_true hf'
      refine ⟨g, hg, ?_⟩
      have hmem' := Machine.activationsOf_mem hl hi hi' hobj hact
      rw [← hframe] at hmem'
      exact hmem'
    · have har := @Machine.runAbove_ar m nodes 0 (Nat.zero_le _)
      rw [← Actors.ar_eq_of_noTrail hhandled.actors] at har
      exact har

/-- The sleeping frame 8 waits for the elements of the variable at 100 and for the instantiation of the one at 200. -/
def oneActor : Machine where
  actors :=
    { frame := fun _ => ⟨.sleep 0, dummyEventObject, 0, [], []⟩
      ar := [], sf := [8], b := 0, localTop := 16, trail := [] }
  car _ := 8
  next a := if a = aDvDomCs 100 then some 50 else if a = aDvInsCs 200 then some 60 else none
  hb := 0
  triggerNo := 0
  triggeredCs _ := 0
  eventFlag _ := .general
  eventObject _ := 0
  triggeringFrame _ := none

/-- Two elements go: the frame takes the one that is handled first, the other one goes to its clone. -/
theorem eventObjects_once_twoElements :
    ∃ m m', Post.insertAll oneActor [.dom 100 6 999, .dom 100 10 999] = some m ∧ m.triggerOnHandler 1 = some m' ∧
      ObjectsOnce m m' fun _ => [50] := by
  obtain ⟨m, hm⟩ : ∃ m, Post.insertAll oneActor [.dom 100 6 999, .dom 100 10 999] = some m := ⟨_, rfl⟩
  have hm' := Option.some.inj hm
  have hl : m.EventLists fun _ => [50] := by
    subst m
    refine ⟨fun i hi hi' => ?_, fun i _ _ a ha => ?_⟩
    · have hi'' : i ≤ 2 := hi'
      rcases (by omega : i = 1 ∨ i = 2) with rfl | rfl <;> exact ⟨rfl, rfl⟩
    · exact (by decide : 8 < 16)
  obtain ⟨m', hrun, hiff⟩ := eventObjects_once_iff hl fun i _ _ => (le_refl 1 : [50].length ≤ 1)
  refine ⟨m, m', hm, hrun, (hiff.2 ?_).1⟩
  subst m
  intro i hi hi' _ f hf _ _
  obtain rfl := mem_singleton.1 hf
  have hi'' : i ≤ 2 := hi'
  rcases (by omega : i = 1 ∨ i = 2) with rfl | rfl
  · exact ⟨rfl, fun flag (hflag : flag ∈ ([] : List EventFlag)) => absurd hflag not_mem_nil⟩
  · exact ⟨rfl, fun flag (hflag : flag ∈ ([] : List EventFlag)) => absurd hflag not_mem_nil⟩

/-- An instantiation between the two marks the frame for another run, and the first element reaches nobody. -/
theorem objectLost_oneActor :
    ∃ m m', Post.insertAll oneActor [.dom 100 6 999, .dvarIns 200 999, .dom 100 10 999] = some m ∧
      m.triggerOnHandler 1 = some m' ∧ ¬ObjectsOnce m m' fun i => if i = 2 then [60] else [50] := by
  refine ⟨_, _, rfl, rfl, fun h => ?_⟩
  obtain ⟨g, hg, -⟩ := h 1 le_rfl (by decide) rfl 8 (mem_singleton.2 rfl) (by decide) (by decide)
  have hnil : ([] : List (ℕ × ℕ)) = [(8, g)] := hg
  cases hnil

end Picat
