import Picat.Event.HandlerRun
import Picat.Event.Layout

/-!
# No lost wake-up

What a batch of events does to one frame that was asleep, or that was running when an instantiation event is handled.

* the last slot of `triggering_frame` may be left from an earlier batch, and then it hides a frame from the bound
  events of this one.
-/

namespace Picat

open Function List

namespace Actors

structure Asleep (s : Actors) (f : ℕ) : Prop where
  sleep : (s.status f).isSleep = true
  off : f ∉ s.ar

/-- The frame is on the chain exactly once, with status `RUN` or `REENT`. -/
structure Woken (s : Actors) (f : ℕ) : Prop where
  count : s.ar.count f = 1
  active : (s.status f).isActive = true

end Actors

/-! ## One frame in a batch -/

variable {stamp : ℕ}

namespace Delivered

variable {seed : Option ℕ} {flag : EventFlag} {elm f g : ℕ} {s s' : Actors}

section
variable (h : Delivered seed flag elm f s s')
include h

theorem status_of_ne (hg : g < s.localTop) (hne : g ≠ f) :
    s'.status g = s.status g := congrArg SuspFrame.status (h.frame_of_ne hg hne)

theorem woken (hf : s.Asleep f) (hreach : flag.Reaches seed f) : s'.Woken f := by
  have hsleep := hf.sleep
  have hcount : (f :: s.ar).count f = 1 := by rw [count_cons_self, count_eq_zero_of_not_mem hf.off]
  cases h with
  | wokenTrailed _ _ _ _ _ _ _ h =>
    subst s'
    exact ⟨hcount, by simp only [Actors.status, update_self]; rfl⟩
  | wokenUntrailed _ _ _ _ _ _ h =>
    subst s'
    exact ⟨hcount, by simp only [Actors.status, update_self]; rfl⟩
  | reentered _ hne _ _ => rw [hne] at hsleep; cases hsleep
  | cloned _ _ _ hrun _ =>
    obtain ⟨stamp, hst⟩ := SuspStatus.isSleep_iff.1 hsleep
    rw [hst] at hrun
    cases hrun
  | ignored _ _ hne _ _ _ => rw [hne hreach] at hsleep; cases hsleep

theorem woken_mono (hg : g < s.localTop) (hw : s.Woken g) : s'.Woken g := by
  obtain ⟨hcount, hactive⟩ := hw
  by_cases hne : g = f
  · subst g
    cases h with
    | wokenTrailed _ _ _ _ hsleep _ _ h => rw [hsleep] at hactive; cases hactive
    | wokenUntrailed _ _ _ _ hsleep _ h => rw [hsleep] at hactive; cases hactive
    | reentered _ _ _ h =>
      subst s'
      refine ⟨hcount, ?_⟩
      simp only [Actors.status, Actors.setStatus, update_self] at hactive ⊢
      cases hst : (s.frame f).status <;> rw [hst] at hactive <;> first | rfl | cases hactive
    | cloned _ _ _ _ h =>
      subst s'
      refine ⟨?_, ?_⟩
      · rw [count_cons_of_ne (Actors.ne_nextClone hg f).symm]
        exact hcount
      · simpa only [Actors.status, update_of_ne (Actors.ne_nextClone hg f)] using hactive
    | ignored _ _ _ _ _ h => subst s'; exact ⟨hcount, hactive⟩
  · refine ⟨?_, by rw [h.status_of_ne hg hne]; exact hactive⟩
    cases h with
    | cloned _ _ _ _ h =>
      subst s'
      rw [count_cons_of_ne (Actors.ne_nextClone hg f).symm]
      exact hcount
    | reentered _ _ _ h => subst s'; exact hcount
    | ignored _ _ _ _ _ h => subst s'; exact hcount
    | _ =>
      subst s'
      rw [count_cons_of_ne (Ne.symm hne)]
      exact hcount

theorem asleep_mono (hg : g < s.localTop) (hs : s.Asleep g)
    (hreach : g = f → ¬flag.Reaches seed f) : s'.Asleep g ∧ s'.status g = s.status g := by
  have hsleep := hs.sleep
  by_cases hne : g = f
  · subst g
    cases h with
    | wokenTrailed _ _ _ hr => exact absurd hr (hreach rfl)
    | wokenUntrailed _ _ _ hr => exact absurd hr (hreach rfl)
    | reentered _ hn _ _ => rw [hn] at hsleep; cases hsleep
    | cloned _ _ _ hrun _ =>
      obtain ⟨stamp, hst⟩ := SuspStatus.isSleep_iff.1 hsleep
      rw [hst] at hrun
      cases hrun
    | ignored _ _ _ _ _ h => subst s'; exact ⟨⟨hsleep, hs.off⟩, rfl⟩
  · have hst := h.status_of_ne hg hne
    refine ⟨⟨by rw [hst]; exact hsleep, ?_⟩, hst⟩
    cases h with
    | cloned _ _ _ _ h =>
      subst s'
      exact not_mem_cons_of_ne_of_not_mem (Actors.ne_nextClone hg f) hs.off
    | reentered _ _ _ h => subst s'; exact hs.off
    | ignored _ _ _ _ _ h => subst s'; exact hs.off
    | _ =>
      subst s'
      exact not_mem_cons_of_ne_of_not_mem hne hs.off

theorem reent_mono (hg : g < s.localTop) (hs : s.status g = .reent stamp) : s'.status g = .reent stamp := by
  by_cases hne : g = f
  · subst g
    cases h with
    | wokenTrailed _ _ _ _ hsleep _ _ h => rw [hs] at hsleep; cases hsleep
    | wokenUntrailed _ _ _ _ hsleep _ h => rw [hs] at hsleep; cases hsleep
    | reentered _ _ _ h =>
      subst s'
      simp only [Actors.status, Actors.setStatus, update_self] at hs ⊢
      rw [hs]
      rfl
    | cloned _ _ _ hrun h => rw [hs] at hrun; cases hrun
    | ignored _ _ _ _ _ h => subst s'; exact hs
  · rw [h.status_of_ne hg hne]
    exact hs

theorem reent_of_run (hins : flag.isIns = true) (hs : s.status f = .run stamp) : s'.status f = .reent stamp := by
  cases h with
  | wokenTrailed _ _ _ _ hsleep _ _ h => rw [hs] at hsleep; cases hsleep
  | wokenUntrailed _ _ _ _ hsleep _ h => rw [hs] at hsleep; cases hsleep
  | reentered _ _ _ h =>
    subst s'
    simp only [Actors.status, Actors.setStatus, update_self] at hs ⊢
    rw [hs]
    rfl
  | cloned _ _ hobj _ _ => rw [EventFlag.hasObject_of_isIns hins] at hobj; cases hobj
  | ignored _ _ _ hexit _ _ => rw [hexit hins] at hs; cases hs

end

end Delivered

namespace Actors

variable {s : Actors} (seed : Option ℕ) (flag : EventFlag) (elm : ℕ) {f : ℕ}

section
variable (fs : List ℕ) (hf : f < s.localTop)
include fs hf

theorem visit_woken_mono (hw : s.Woken f) : (s.visit seed flag elm fs).Woken f := by
  induction fs generalizing s with
  | nil => exact hw
  | cons g fs ih =>
    have hd := s.deliver_delivered seed flag elm g
    exact ih (hf.trans_le hd.localTop_le) (hd.woken_mono hf hw)

theorem visit_reent_mono (hs : s.status f = .reent stamp) : (s.visit seed flag elm fs).status f = .reent stamp := by
  induction fs generalizing s with
  | nil => exact hs
  | cons g fs ih =>
    have hd := s.deliver_delivered seed flag elm g
    exact ih (hf.trans_le hd.localTop_le) (hd.reent_mono hf hs)

theorem visit_asleep (hs : s.Asleep f) (hreach : f ∈ fs → ¬flag.Reaches seed f) :
    (s.visit seed flag elm fs).Asleep f ∧ (s.visit seed flag elm fs).status f = s.status f := by
  induction fs generalizing s with
  | nil => exact ⟨hs, rfl⟩
  | cons g fs ih =>
    have hd := s.deliver_delivered seed flag elm g
    obtain ⟨hs', hst⟩ := hd.asleep_mono hf hs fun h => h ▸ hreach (h ▸ mem_cons_self ..)
    obtain ⟨hs'', hst'⟩ := ih (hf.trans_le hd.localTop_le) hs' fun h => hreach (mem_cons_of_mem _ h)
    exact ⟨hs'', hst'.trans hst⟩

theorem visit_woken (hs : s.Asleep f) (hmem : f ∈ fs)
    (hreach : flag.Reaches seed f) : (s.visit seed flag elm fs).Woken f := by
  induction fs generalizing s with
  | nil => cases hmem
  | cons g fs ih =>
    have hd := s.deliver_delivered seed flag elm g
    by_cases hg : f = g
    · subst g
      exact visit_woken_mono seed flag elm fs (hf.trans_le hd.localTop_le) (hd.woken hs hreach)
    · exact ih (hf.trans_le hd.localTop_le) (hd.asleep_mono hf hs fun h => absurd h hg).1
        ((mem_cons.1 hmem).resolve_left hg)

theorem visit_reent_of_run (hs : s.status f = .run stamp)
    (hmem : f ∈ fs) (hins : flag.isIns = true) : (s.visit seed flag elm fs).status f = .reent stamp := by
  induction fs generalizing s with
  | nil => cases hmem
  | cons g fs ih =>
    have hd := s.deliver_delivered seed flag elm g
    by_cases hg : f = g
    · subst g
      exact visit_reent_mono seed flag elm fs (hf.trans_le hd.localTop_le) (hd.reent_of_run hins hs)
    · exact ih (hf.trans_le hd.localTop_le) ((hd.status_of_ne hf hg).trans hs)
        ((mem_cons.1 hmem).resolve_left hg)

end

end Actors

namespace Machine

variable {m : Machine} {nodes : ℕ → List ℕ} {f : ℕ}

/-- Some event above `i` is handed to the frame. -/
def ReachedAbove (m : Machine) (nodes : ℕ → List ℕ) (i f : ℕ) : Prop :=
  ∃ j, i < j ∧ j ≤ m.triggerNo ∧ f ∈ m.attached nodes j ∧ (m.eventFlag j).Reaches m.seed f

theorem runAbove_wakes (hf : f < m.actors.localTop) (hs : m.actors.Asleep f) (i : ℕ) (hi : i ≤ m.triggerNo) :
    (m.ReachedAbove nodes i f → (m.runAbove nodes i).Woken f) ∧ (¬m.ReachedAbove nodes i f →
        (m.runAbove nodes i).Asleep f ∧ (m.runAbove nodes i).status f = m.actors.status f) := by
  induction hk : m.triggerNo - i generalizing i with
  | zero =>
    obtain rfl : i = m.triggerNo := by omega
    rw [runAbove_triggerNo]
    exact ⟨fun ⟨j, hj, hj', _⟩ => by omega, fun _ => ⟨hs, rfl⟩⟩
  | succ k ih =>
    obtain ⟨hwoken, hasleep⟩ := ih (i + 1) (by omega) (by omega)
    have hf' : f < (m.runAbove nodes (i + 1)).localTop := hf.trans_le (m.localTop_le_runAbove nodes (i + 1))
    rw [runAbove_succ _ _ (by omega : i < m.triggerNo)]
    by_cases habove : m.ReachedAbove nodes (i + 1) f
    · refine ⟨fun _ => Actors.visit_woken_mono _ _ _ _ hf' (hwoken habove), fun hnot => absurd ?_ hnot⟩
      obtain ⟨j, hj, hj', hmem⟩ := habove
      exact ⟨j, by omega, hj', hmem⟩
    · obtain ⟨has, hst⟩ := hasleep habove
      by_cases hnow : f ∈ m.attached nodes (i + 1) ∧ (m.eventFlag (i + 1)).Reaches m.seed f
      · exact ⟨fun _ => Actors.visit_woken _ _ _ _ hf' has hnow.1 hnow.2,
          fun hnot => absurd ⟨i + 1, by omega, by omega, hnow⟩ hnot⟩
      · obtain ⟨has', hst'⟩ := Actors.visit_asleep m.seed (m.eventFlag (i + 1)) (m.eventObject (i + 1))
          (m.attached nodes (i + 1)) hf' has fun hmem hr => hnow ⟨hmem, hr⟩
        refine ⟨fun ⟨j, hj, hj', hmem⟩ => ?_, fun _ => ⟨has', hst'.trans hst⟩⟩
        by_cases hji : j = i + 1
        · exact absurd (hji ▸ hmem) hnow
        · exact absurd ⟨j, by omega, hj', hmem⟩ habove

theorem runAbove_reent (hf : f < m.actors.localTop) {i : ℕ} (hi : i < m.triggerNo)
    (hins : (m.eventFlag (i + 1)).isIns = true) (hmem : f ∈ m.attached nodes (i + 1))
    (hrun : (m.runAbove nodes (i + 1)).status f = .run stamp) (k : ℕ) (hk : k ≤ i) :
    (m.runAbove nodes k).status f = .reent stamp := by
  have htop : ∀ j, f < (m.runAbove nodes j).localTop := fun j => hf.trans_le (m.localTop_le_runAbove nodes j)
  induction hd : i - k generalizing k with
  | zero =>
    obtain rfl : k = i := by omega
    rw [runAbove_succ _ _ hi]
    exact Actors.visit_reent_of_run _ _ _ _ (htop _) hrun hmem hins
  | succ d ih =>
    rw [runAbove_succ _ _ (by omega : k < m.triggerNo)]
    exact Actors.visit_reent_mono _ _ _ _ (htop _) (ih (k + 1) (by omega) (by omega))

end Machine

/-! ## The content of the queue -/

namespace Post

/-- `triggering_frame[trigger_no]` after the macro: some macros leave what is there. -/
def slotAfter (stale : Option ℕ) : Post → Option ℕ
  | dvarIns .. | minmax .. => none
  | minmaxCheckseed _ arreg => some arreg
  | _ => stale

/-- The macro does not write its slot of `triggering_frame`. -/
def keepsSlot : Post → Bool
  | dvarIns .. | minmax .. | minmaxCheckseed .. => false
  | _ => true

theorem slotAfter_of_keepsSlot {p : Post} (h : p.keepsSlot = true) (stale : Option ℕ) : p.slotAfter stale = stale := by
  cases p <;> first | rfl | cases h

def append (m : Machine) (p : Post) : Machine :=
  { m.enqueue p.port p.flag with
    eventObject := update m.eventObject (m.triggerNo + 1) (p.elm.getD (m.eventObject (m.triggerNo + 1)))
    triggeringFrame := update m.triggeringFrame (m.triggerNo + 1)
      (p.slotAfter (m.triggeringFrame (m.triggerNo + 1))) }

theorem insertTrigger_eq {m : Machine} (hroom : m.triggerNo < maxTriggers) (port : ℕ) (flag : EventFlag)
    (full : Option Machine) (fill : Machine → Machine) :
    m.insertTrigger port flag full fill = some (if (m.next port).isSome then fill (m.enqueue port flag) else m) := by
  unfold Machine.insertTrigger
  cases hnext : m.next port with
  | none => rfl
  | some a => rw [if_neg (by simp), if_neg (by omega)]; rfl

theorem insert_eq (m : Machine) (p : Post) (hroom : m.triggerNo < maxTriggers) :
    p.insert m = some (if p.queued m.next then p.append m else m) := by
  have hfull : ¬m.triggerNo ≥ maxTriggers := by omega
  cases p with
  | outerDom0 dv e ar =>
    rw [insert, Machine.insertTriggerOuterDom0, if_neg hfull]
    simp [queued, append, slotAfter, elm, port, flag, Machine.enqueue, Machine.setEventObject]
  | outerDom dv e ar =>
    rw [insert, Machine.insertTriggerOuterDom, Machine.insertTriggerOuterDom0, if_neg hfull]
    cases hnext : m.next (aDvOuterDomCs dv) <;>
      simp [queued, hnext, append, slotAfter, elm, port, flag, Machine.enqueue, Machine.setEventObject]
  | varIns dv ar =>
    rw [insert, Machine.insertTriggerVarIns, insertTrigger_eq hroom]
    simp [queued, append, slotAfter, elm, port, flag, Machine.enqueue]
  | dvarIns dv ar =>
    rw [insert, Machine.insertTriggerDvarIns, insertTrigger_eq hroom]
    simp [queued, append, slotAfter, elm, port, flag, Machine.enqueue, Machine.setTriggeringFrame]
  | minmax dv ar =>
    rw [insert, Machine.insertTriggerMinmax, insertTrigger_eq hroom]
    simp [queued, append, slotAfter, elm, port, flag, Machine.enqueue, Machine.setTriggeringFrame]
  | minmaxCheckseed dv ar =>
    rw [insert, Machine.insertTriggerMinmaxCheckseed, insertTrigger_eq hroom]
    simp [queued, append, slotAfter, elm, port, flag, Machine.enqueue, Machine.setTriggeringFrame]
  | dom dv e ar =>
    rw [insert, Machine.insertTriggerDom, insertTrigger_eq hroom]
    simp [queued, append, slotAfter, elm, port, flag, Machine.enqueue, Machine.setEventObject]
  | event dv e ar =>
    rw [insert, Machine.insertTriggerEvent, insertTrigger_eq hroom]
    simp [queued, append, slotAfter, elm, port, flag, Machine.enqueue, Machine.setEventObject]

/-- What the macros have put in the arrays: the events that they queued, in order, over what was there. -/
structure Filled (m₀ : Machine) (q : List Post) (m : Machine) : Prop where
  actors : m.actors = m₀.actors
  next : m.next = m₀.next
  car : m.car = m₀.car
  triggerNo : m.triggerNo = m₀.triggerNo + q.length
  triggeredCs : ∀ i (hi : i < q.length), m.triggeredCs (m₀.triggerNo + i + 1) = q[i].port
  eventFlag : ∀ i (hi : i < q.length), m.eventFlag (m₀.triggerNo + i + 1) = q[i].flag
  eventObject : ∀ i (hi : i < q.length), ∀ e, q[i].elm = some e → m.eventObject (m₀.triggerNo + i + 1) = e
  triggeringFrame : ∀ i (hi : i < q.length),
    m.triggeringFrame (m₀.triggerNo + i + 1) = q[i].slotAfter (m₀.triggeringFrame (m₀.triggerNo + i + 1))
  stale : ∀ j, m.triggerNo < j → m.triggeringFrame j = m₀.triggeringFrame j

theorem filled_nil (m : Machine) : Filled m [] m :=
  ⟨rfl, rfl, rfl, rfl, fun _ hi => absurd hi (Nat.not_lt_zero _), fun _ hi => absurd hi (Nat.not_lt_zero _),
    fun _ hi => absurd hi (Nat.not_lt_zero _), fun _ hi => absurd hi (Nat.not_lt_zero _), fun _ _ => rfl⟩

theorem Filled.append {m₀ m : Machine} {q : List Post} (h : Filled m₀ q m) (p : Post) :
    Filled m₀ (q ++ [p]) (p.append m) := by
  have hno := h.triggerNo
  -- an index is that of an older entry, or the one after the last
  have hold : ∀ i, i < q.length → m₀.triggerNo + i + 1 ≠ m.triggerNo + 1 := fun i hi => by omega
  have hcases : ∀ {P : ℕ → Post → Prop}, (∀ i (hi : i < q.length), P (m₀.triggerNo + i + 1) q[i]) →
      P (m.triggerNo + 1) p → ∀ i (hi : i < (q ++ [p]).length), P (m₀.triggerNo + i + 1) (q ++ [p])[i] := by
    intro P hq hp i hi
    by_cases hlt : i < q.length
    · rw [getElem_append_left hlt]
      exact hq i hlt
    · have hlen : i = q.length := by
        rw [length_append, length_singleton] at hi
        omega
      subst i
      rw [getElem_concat_length rfl, ← hno]
      exact hp
  refine ⟨h.actors, h.next, h.car, ?_, ?_, ?_, ?_, ?_, ?_⟩
  · rw [length_append, length_singleton]
    exact (congrArg (· + 1) hno).trans (Nat.add_assoc _ _ _)
  · refine @hcases (fun j p' => (p.append m).triggeredCs j = p'.port) (fun i hi => ?_) (update_self ..)
    exact (update_of_ne (hold i hi) _ _).trans (h.triggeredCs i hi)
  · refine @hcases (fun j p' => (p.append m).eventFlag j = p'.flag) (fun i hi => ?_) (update_self ..)
    exact (update_of_ne (hold i hi) _ _).trans (h.eventFlag i hi)
  · refine @hcases (fun j p' => ∀ e, p'.elm = some e → (p.append m).eventObject j = e) (fun i hi e he => ?_)
      fun e he => ?_
    · exact (update_of_ne (hold i hi) _ _).trans (h.eventObject i hi e he)
    · exact (update_self ..).trans (by rw [he]; rfl)
  · refine @hcases (fun j p' => (p.append m).triggeringFrame j = p'.slotAfter (m₀.triggeringFrame j))
      (fun i hi => ?_) ?_
    · exact (update_of_ne (hold i hi) _ _).trans (h.triggeringFrame i hi)
    · exact (update_self ..).trans (by rw [h.stale _ (Nat.lt_succ_self _)])
  · intro j hj
    have hj' : m.triggerNo + 1 < j := hj
    exact (update_of_ne (by omega) _ _).trans (h.stale j (by omega))

theorem insertAll_filled {m₀ m : Machine} {posts : List Post} (hroom : m₀.triggerNo + posts.length < maxTriggers)
    (h : insertAll m₀ posts = some m) : Filled m₀ (posts.filter (queued m₀.next)) m := by
  induction posts using List.reverseRecOn generalizing m with
  | nil => exact Option.some.inj h ▸ filled_nil m₀
  | append_singleton posts p ih =>
    rw [length_append, length_singleton] at hroom
    rw [insertAll, foldlM_append] at h
    obtain ⟨m', hm', h⟩ := Option.bind_eq_some_iff.1 h
    have hf := ih (by omega) hm'
    have hle : (posts.filter (queued m₀.next)).length ≤ posts.length := length_filter_le _ _
    have hno := hf.triggerNo
    rw [foldlM_cons, insert_eq m' p (by omega), hf.next] at h
    obtain rfl := Option.some.inj h
    rw [filter_append]
    cases hq : p.queued m₀.next with
    | true =>
      rw [filter_cons_of_pos hq]
      exact hf.append p
    | false =>
      rw [filter_cons_of_neg (by simp [hq]), filter_nil, append_nil]
      exact hf

end Post

end Picat

/-! # The wake-ups of a batch -/

namespace Picat

open Actors List

/-! ## Runs beside a frame -/

/-- The step is not one of the frame's own, and does not take its activation away. -/
def World.Spares (w : World) (f : ℕ) : Act → Prop
  | .delay | .endDelay | .returnDelay | .returnCommit => w.actors.ar.head? ≠ some f
  | .fail _ => False
  | _ => True

/-- A run in which the frame is kept on the stack and does not act. -/
inductive World.RunsBeside (f : ℕ) : World → World → Prop
  | refl (w : World) : RunsBeside f w w
  | step {w w' w'' : World} {a : Act} (h : RunsBeside f w w') (hspares : w'.Spares f a)
      (hstep : w'.step a = some w'') (hin : f < w''.actors.localTop) : RunsBeside f w w''

theorem deliverAll_reent {s : Actors} {f stamp : ℕ} (seed : Option ℕ) (ds : List Delivery) (hf : f < s.localTop)
    (hst : s.status f = .reent stamp) : (s.deliverAll seed ds).status f = .reent stamp := by
  induction ds generalizing s with
  | nil => exact hst
  | cons d ds ih =>
    have hd := s.deliver_delivered seed d.flag d.elm d.frame
    exact ih (hf.trans_le hd.localTop_le) (hd.reent_mono hf hst)

theorem popLocal_status (s : Actors) (g f : ℕ) : (s.popLocal g).status f = s.status f := by
  unfold Actors.popLocal
  split_ifs <;> rfl

theorem World.step_reent {w w' : World} {a : Act} {f stamp : ℕ} (hspares : w.Spares f a) (hstep : w.step a = some w')
    (hf : f < w.actors.localTop) (hst : w.actors.status f = .reent stamp) : w'.actors.status f = .reent stamp := by
  have hhead : ∀ {g rest}, w.actors.ar.head? ≠ some f → w.actors.ar = g :: rest → g ≠ f := by
    rintro g rest hne har rfl
    rw [har] at hne
    exact hne rfl
  cases a with
  | allocate reep args locals =>
    obtain rfl := Option.some.inj hstep
    exact (congrArg SuspFrame.status (Function.update_of_ne (by omega) _ _)).trans hst
  | delay =>
    simp only [World.step, Option.ite_none_right_eq_some] at hstep
    obtain rfl := Option.some.inj hstep.2
    dsimp only [Actors.delay]
    split
    · next g rest har =>
        split_ifs
        · rw [setStatus_status, if_neg (hhead hspares har)]
          exact hst
        · exact hst
    · exact hst
  | handle seed ds =>
    simp only [World.step, Option.ite_none_right_eq_some] at hstep
    obtain rfl := Option.some.inj hstep.2
    exact deliverAll_reent seed ds hf hst
  | endDelay =>
    simp only [World.step, Option.ite_none_right_eq_some] at hstep
    obtain rfl := Option.some.inj hstep.2
    dsimp only [Actors.endDelay]
    split
    · next g rest har =>
        split_ifs
        · exact hst
        · rw [setStatus_status, if_neg (hhead hspares har)]
          exact hst
    · exact hst
  | returnDelay =>
    simp only [World.step] at hstep
    split at hstep
    · next g rest har =>
        have hgf : g ≠ f := hhead hspares har
        simp only [Option.ite_none_right_eq_some] at hstep
        obtain rfl := Option.some.inj hstep.2
        dsimp only [Actors.returnDelay]
        split
        · next heq => rw [har] at heq; cases heq
        · next g' rest' heq =>
            obtain ⟨rfl, rfl⟩ := List.cons.inj (har.symm.trans heq)
            split
            · exact hst
            · rw [popLocal_status]
              exact hst
            · rw [setStatus_status, if_neg hgf]
              exact hst
            · rw [setStatus_status, if_neg hgf]
              exact hst
    · cases hstep
  | returnCommit =>
    simp only [World.step] at hstep
    split at hstep
    · next g rest har =>
        simp only [Option.ite_none_right_eq_some] at hstep
        obtain rfl := Option.some.inj hstep.2
        dsimp only [Actors.returnCommit]
        split
        · next heq => rw [har] at heq; cases heq
        · split_ifs
          · rw [popLocal_status]
            exact hst
          · exact hst
    · cases hstep
  | moveTop localTop =>
    simp only [World.step, Option.ite_none_right_eq_some] at hstep
    exact Option.some.inj hstep.2 ▸ hst
  | nondet b size =>
    simp only [World.step, Option.ite_none_right_eq_some] at hstep
    exact Option.some.inj hstep.2 ▸ hst
  | cut n => exact Option.some.inj hstep ▸ hst
  | fail keep => exact absurd hspares id

theorem World.RunsBeside.reent {w w' : World} {f stamp : ℕ} (h : RunsBeside f w w') (hf : f < w.actors.localTop)
    (hst : w.actors.status f = .reent stamp) : w'.actors.status f = .reent stamp ∧ f < w'.actors.localTop := by
  induction h with
  | refl => exact ⟨hst, hf⟩
  | step _ hspares hstep hin ih => exact ⟨World.step_reent hspares hstep ih.2 ih.1, hin⟩

theorem World.step_returnDelay_reent {w w' : World} {f stamp : ℕ} {rest : List ℕ} (har : w.actors.ar = f :: rest)
    (hst : w.actors.status f = .reent stamp) (hstep : w.step .returnDelay = some w') :
    w'.actors.ar = f :: rest ∧ w'.actors.status f = .run stamp := by
  simp only [World.step] at hstep
  split at hstep
  · next g rest' heq =>
      obtain ⟨rfl, rfl⟩ := List.cons.inj (har.symm.trans heq)
      simp only [Option.ite_none_right_eq_some] at hstep
      obtain rfl := Option.some.inj hstep.2
      dsimp only [Actors.returnDelay]
      split
      · next heq' => rw [har] at heq'; cases heq'
      · next heq' =>
          obtain ⟨rfl, rfl⟩ := List.cons.inj (har.symm.trans heq')
          have hst' : Actors.status { w.actors with ar := rest } f = .reent stamp := hst
          rw [hst']
          exact ⟨rfl, by rw [setStatus_status, if_pos rfl]⟩
  · cases hstep

/-! ## A batch -/

/-- The macros `posts` have filled an empty queue, which they did not overflow; sleeping frames are off the chain. -/
structure Batch (m₀ : Machine) (posts : List Post) (m : Machine) (nodes : ℕ → List ℕ) : Prop where
  empty : m₀.triggerNo = 0
  room : posts.length < maxTriggers
  posted : Post.insertAll m₀ posts = some m
  lists : m.EventLists nodes
  off : ∀ f, (m₀.actors.status f).isSleep = true → f ∉ m₀.actors.ar

/-- Every frame that was asleep and is attached to the list of an instantiation event, or of a bound event, is woken;
for a bound event it may be left asleep if an event of the batch was raised in its own run. -/
def NoLostWakeUp (m m' : Machine) (nodes : ℕ → List ℕ) (q : List Post) : Prop :=
  ∀ i, 1 ≤ i → i ≤ m.triggerNo → ∀ f ∈ m.attached nodes i, (m.actors.status f).isSleep = true →
    ((m.eventFlag i).isIns = true → m'.actors.Woken f) ∧ (m.eventFlag i = .dvarMinmax →
        m'.actors.Woken f ∨ (m'.actors.status f).isSleep = true ∧ ∃ p ∈ q, p.raiser = f)

/-- The machine once the events above `i` are handled. -/
def Machine.handledAbove (m : Machine) (fuel i : ℕ) : Option Machine :=
  (List.range' (i + 1) (m.triggerNo - i)).reverse.foldlM (Machine.handleEvent fuel) m

/-- Every attached frame that runs when an instantiation event is handled is marked `REENT`, and `return_delay` puts it
on the chain again, whatever other frames do in between. -/
def RunAgain (m m' : Machine) (nodes : ℕ → List ℕ) (fuel : ℕ) : Prop :=
  ∀ i < m.triggerNo, (m.eventFlag (i + 1)).isIns = true → ∀ f ∈ m.attached nodes (i + 1), ∀ mi stamp,
    m.handledAbove fuel (i + 1) = some mi → mi.actors.status f = .run stamp → m'.actors.status f = .reent stamp ∧
        ∀ w w' : World, w.actors = m'.actors → w.RunsBeside f w' → ∀ rest, w'.actors.ar = f :: rest →
          ∀ w'', w'.step .returnDelay = some w'' → w''.actors.ar = f :: rest ∧ w''.actors.status f = .run stamp

/-- The last macro does not write its slot of `triggering_frame`, where an earlier batch has left a sleeping frame that is
attached to a bound event of this batch, to no event of another kind, and that raised none of the events. -/
def StaleSeed (m₀ m : Machine) (nodes : ℕ → List ℕ) (q : List Post) : Prop :=
  ∃ f, (∃ p ∈ q.getLast?, p.keepsSlot = true) ∧
    m₀.triggeringFrame q.length = some f ∧ (m₀.actors.status f).isSleep = true ∧
    (∃ i, 1 ≤ i ∧ i ≤ m.triggerNo ∧ f ∈ m.attached nodes i) ∧
    (∀ i, 1 ≤ i → i ≤ m.triggerNo → f ∈ m.attached nodes i → m.eventFlag i = .dvarMinmax) ∧
    ∀ p ∈ q, p.raiser ≠ f

theorem Post.Filled.seed_eq {m₀ m : Machine} {q : List Post} (h : Post.Filled m₀ q m) (hempty : m₀.triggerNo = 0)
    {p : Post} (hp : q.getLast? = some p) : m.seed = p.slotAfter (m₀.triggeringFrame q.length) := by
  have hne : q ≠ [] := by rintro rfl; cases hp
  have hpos := length_pos_of_ne_nil hne
  have hlast : q[q.length - 1] = p := by
    rw [List.getLast?_eq_some_getLast hne] at hp
    exact (getLast_eq_getElem hne).symm.trans (Option.some.inj hp)
  have hslot := h.triggeringFrame (q.length - 1) (by omega)
  have hidx : m₀.triggerNo + (q.length - 1) + 1 = q.length := by omega
  rw [hidx, hlast] at hslot
  rw [Machine.seed, h.triggerNo, hempty, Nat.zero_add]
  exact hslot

/-- The batch wakes every frame it has to, unless a stale slot hides one; what instantiation events find running is run
again in any case. -/
theorem noLostWakeUp_iff {m₀ m : Machine} {posts : List Post} {nodes : ℕ → List ℕ} {fuel : ℕ}
    (h : Batch m₀ posts m nodes) (hfuel : ∀ i, 1 ≤ i → i ≤ m.triggerNo → (nodes i).length ≤ fuel) :
    ∃ m', m.triggerOnHandler fuel = some m' ∧
      (NoLostWakeUp m m' nodes (posts.filter (Post.queued m₀.next)) ∧ RunAgain m m' nodes fuel ↔
        ¬StaleSeed m₀ m nodes (posts.filter (Post.queued m₀.next))) := by
  have hfilled := Post.insertAll_filled (by rw [h.empty, Nat.zero_add]; exact h.room) h.posted
  obtain ⟨m', hrun, hhandled⟩ := Machine.triggerOnHandler_run h.lists hfuel
  refine ⟨{ m' with triggerNo := 0 }, hrun, ?_⟩
  obtain ⟨q, hq⟩ : ∃ q, q = posts.filter (Post.queued m₀.next) := ⟨_, rfl⟩
  rw [← hq] at hfilled ⊢
  have hstatus : ∀ f, m'.actors.status f = (m.runAbove nodes 0).status f :=
    Actors.status_eq_of_noTrail hhandled.actors
  have har : m'.actors.ar = (m.runAbove nodes 0).ar := Actors.ar_eq_of_noTrail hhandled.actors
  have halloc : ∀ {i f}, 1 ≤ i → i ≤ m.triggerNo → f ∈ m.attached nodes i → f < m.actors.localTop := by
    intro i f hi hi' hf
    obtain ⟨a, ha, rfl⟩ := mem_map.1 hf
    exact h.lists.allocated i hi hi' a ha
  have hasleep : ∀ {f}, (m.actors.status f).isSleep = true → m.actors.Asleep f := fun hs =>
    ⟨hs, hfilled.actors ▸ h.off _ (hfilled.actors ▸ hs)⟩
  have hwoken : ∀ {i f}, 1 ≤ i → i ≤ m.triggerNo → f ∈ m.attached nodes i → (m.actors.status f).isSleep = true →
      m.ReachedAbove nodes 0 f → m'.actors.Woken f := by
    intro i f hi hi' hf hs hreach
    obtain ⟨hcount, hactive⟩ := (Machine.runAbove_wakes (halloc hi hi' hf) (hasleep hs) 0 (Nat.zero_le _)).1 hreach
    exact ⟨har ▸ hcount, hstatus f ▸ hactive⟩
  constructor
  · rintro ⟨hno, -⟩ ⟨f, ⟨p, hp, hkeeps⟩, hslot, hs, ⟨i, hi, hi', hf⟩, hall, hraise⟩
    rw [← hfilled.actors] at hs
    have hseed : m.seed = some f := by
      rw [hfilled.seed_eq h.empty hp, Post.slotAfter_of_keepsSlot hkeeps, hslot]
    have hnot : ¬m.ReachedAbove nodes 0 f := fun ⟨j, hj, hj', hjf, hreach⟩ =>
      hreach (hall j (by omega) hj' hjf) hseed
    have hst := ((Machine.runAbove_wakes (halloc hi hi' hf) (hasleep hs) 0 (Nat.zero_le _)).2 hnot).2
    rcases (hno i hi hi' f hf hs).2 (hall i hi hi' hf) with hw | ⟨-, p', hp', hraiser⟩
    · have hactive := hw.active
      rw [show Actors.status _ f = _ from (hstatus f).trans hst] at hactive
      obtain ⟨stamp, hsleep⟩ := SuspStatus.isSleep_iff.1 hs
      rw [hsleep] at hactive
      cases hactive
    · exact hraise p' hp' hraiser
  · intro hstale
    refine ⟨fun i hi hi' f hf hs => ⟨fun hins => ?_, fun hminmax => ?_⟩, fun i hi hins f hf mi stamp hmi hst => ?_⟩
    · refine hwoken hi hi' hf hs ⟨i, by omega, hi', hf, fun hflag => ?_⟩
      rw [hflag] at hins
      cases hins
    · by_cases hreach : m.ReachedAbove nodes 0 f
      · exact .inl (hwoken hi hi' hf hs hreach)
      · right
        refine ⟨?_, ?_⟩
        · exact (congrArg SuspStatus.isSleep ((hstatus f).trans
            ((Machine.runAbove_wakes (halloc hi hi' hf) (hasleep hs) 0 (Nat.zero_le _)).2 hreach).2)).trans hs
        · -- only the last slot can have kept the events from the frame
          have hseed : m.seed = some f := by
            by_contra hne
            exact hreach ⟨i, by omega, hi', hf, fun _ => hne⟩
          have hall : ∀ j, 1 ≤ j → j ≤ m.triggerNo → f ∈ m.attached nodes j → m.eventFlag j = .dvarMinmax :=
            fun j hj hj' hjf => by
              by_contra hne
              exact hreach ⟨j, by omega, hj', hjf, fun hflag => absurd hflag hne⟩
          have hqne : q ≠ [] := by
            rintro rfl
            have hno := hfilled.triggerNo
            rw [h.empty, length_nil] at hno
            omega
          have hp : q.getLast? = some (q.getLast hqne) := List.getLast?_eq_some_getLast hqne
          have hslot := hfilled.seed_eq h.empty hp
          by_contra hraise
          have hraise' : ∀ p ∈ q, p.raiser ≠ f := fun p hp hr => hraise ⟨p, hp, hr⟩
          have hkeeps : (q.getLast hqne).keepsSlot = true := by
            have hne := hraise' _ (getLast_mem hqne)
            rw [hseed] at hslot
            cases hlast : q.getLast hqne <;> rw [hlast] at hslot hne <;> first | rfl | cases hslot
            exact absurd rfl hne
          rw [Post.slotAfter_of_keepsSlot hkeeps, hseed] at hslot
          exact hstale ⟨f, ⟨_, hp, hkeeps⟩, hslot.symm, hfilled.actors ▸ hs, ⟨i, hi, hi', hf⟩, hall, hraise'⟩
    · have hlt := halloc (Nat.succ_le_succ (Nat.zero_le i)) hi hf
      obtain ⟨mi', hmi', hhandled'⟩ := Machine.handleEvents_run h.lists hfuel (i + 1) hi
      obtain rfl : mi = mi' := Option.some.inj (hmi.symm.trans hmi')
      have hrun' := Actors.status_eq_of_noTrail hhandled'.actors f
      have hmarked : m'.actors.status f = .reent stamp :=
        (hstatus f).trans (Machine.runAbove_reent hlt hi hins hf (hrun'.symm.trans hst) 0 (Nat.zero_le _))
      refine ⟨hmarked, fun w w' hw hbeside rest hwar w'' hstep => ?_⟩
      have hltw : f < w.actors.localTop := by
        rw [hw]
        exact hlt.trans_le ((m.localTop_le_runAbove nodes 0).trans_eq
          (Actors.localTop_eq_of_noTrail hhandled.actors).symm)
      exact World.step_returnDelay_reent hwar (hbeside.reent hltw (hw ▸ hmarked)).1 hstep

/-! ## Two variables -/

/-- Frame 8 waits for the bounds of the variable at 100 and frame 30 for the elements of the one at 200; `stale` is in the
slot of the last event of an earlier batch. -/
def twoVariables (stale : Option ℕ) : Machine where
  actors :=
    { frame := fun _ => ⟨.sleep 0, dummyEventObject, 0, [], []⟩
      ar := [], sf := [30, 8], b := 0, localTop := 40, trail := [] }
  car a := if a = 50 then 8 else 30
  next a := if a = aDvMinmaxCs 100 then some 50 else if a = aDvDomCs 200 then some 60 else none
  hb := 0
  triggerNo := 0
  triggeredCs _ := 0
  eventFlag _ := .general
  eventObject _ := 0
  triggeringFrame i := if i = 2 then stale else none

/-- A bound of the first variable changes, then an element of the second goes. -/
def boundThenDom : List Post := [.minmax 100 999, .dom 200 5 999]

def twoLists (i : ℕ) : List ℕ := if i = 1 then [50] else if i = 2 then [60] else []

theorem batch_twoVariables (stale : Option ℕ) {m : Machine}
    (hm : Post.insertAll (twoVariables stale) boundThenDom = some m) :
    Batch (twoVariables stale) boundThenDom m twoLists := by
  obtain rfl := Option.some.inj hm
  refine ⟨rfl, by decide, rfl, ⟨fun i hi hi' => ?_, fun i hi hi' a ha => ?_⟩, fun f _ => not_mem_nil⟩
  · have hi'' : i ≤ 2 := hi'
    rcases (by omega : i = 1 ∨ i = 2) with rfl | rfl <;> exact ⟨rfl, rfl⟩
  · have hi'' : i ≤ 2 := hi'
    rcases (by omega : i = 1 ∨ i = 2) with rfl | rfl <;> obtain rfl := mem_singleton.1 ha
    · exact (by decide : 8 < 40)
    · exact (by decide : 30 < 40)

theorem noLostWakeUp_iff_twoVariables :
    ∃ m m', Post.insertAll (twoVariables none) boundThenDom = some m ∧ m.triggerOnHandler 1 = some m' ∧
      NoLostWakeUp m m' twoLists boundThenDom := by
  obtain ⟨m, hm⟩ : ∃ m, Post.insertAll (twoVariables none) boundThenDom = some m := ⟨_, rfl⟩
  have hbatch := batch_twoVariables none hm
  have hfuel : ∀ i, 1 ≤ i → i ≤ m.triggerNo → (twoLists i).length ≤ 1 := by
    intro i _ _
    unfold twoLists
    split_ifs <;> decide
  obtain ⟨m', hm', hiff⟩ := noLostWakeUp_iff hbatch hfuel
  refine ⟨m, m', hm, hm', (hiff.2 ?_).1⟩
  intro h
  obtain ⟨f, -, hslot, -⟩ := h
  cases hslot

/-- The stale slot hides frame 8 from the change of its bound: it is asleep after the handler. -/
theorem lostWakeUp_twoVariables :
    ∃ m m', Post.insertAll (twoVariables (some 8)) boundThenDom = some m ∧ m.triggerOnHandler 1 = some m' ∧
      ¬NoLostWakeUp m m' twoLists boundThenDom := by
  refine ⟨_, _, rfl, rfl, fun h => ?_⟩
  rcases (h 1 le_rfl (by decide) 8 (mem_singleton.2 rfl) rfl).2 rfl with hw | ⟨-, p, hp, hraiser⟩
  · exact absurd hw.active (by decide)
  · rcases mem_cons.1 hp with rfl | hp
    · cases hraiser
    · obtain rfl := mem_singleton.1 hp
      cases hraiser

end Picat
