import Picat.Event.Layout

/-!
# Runs that keep the status words

Every step of a run keeps the invariant of frames and choice points, as long as no choice point gets the address that a
sleeping frame has as its stamp.
-/

namespace Picat

open Actors Function List

/-- No choice point is put at an address that a sleeping frame has as its stamp. -/
def World.Fits (w : World) : Act → Prop
  | .nondet b _ => ∀ f ∈ w.actors.sf, w.actors.status f ≠ .sleep b
  | _ => True

structure World.Good (w : World) : Prop where
  onChain : OnChain w.actors
  laid : Laid w.actors w.choices
  topB : w.actors.b = World.topB w.choices
  stack : Stack w.actors.status w.actors.trail w.choices

variable {trail : List TrailEntry} {c : ChoicePoint}

theorem Stack.congr {st st' : ℕ → SuspStatus} {trail outs : List TrailEntry} {cs : List ChoicePoint}
    (h : Stack st trail cs) (houts : OutEntries outs) (hst : ∀ c ∈ cs, ∀ g, g ∈ c.sf ∨ g ∈ c.ar → st' g = st g) :
    Stack st' (outs ++ trail) cs := by
  cases cs with
  | nil => trivial
  | cons c cs =>
    obtain ⟨seg, base, rfl, hlen, hheld, hrest⟩ := h
    exact ⟨outs ++ seg, base, (append_assoc ..).symm, hlen, (hheld.congr (hst c (mem_cons_self ..))).outs houts, hrest⟩

theorem Stack.change {st st' : ℕ → SuspStatus} {cs : List ChoicePoint}
    {f : ℕ} (h : Stack st trail (c :: cs)) (hst : ∀ g, g ∈ c.sf ∨ g ∈ c.ar → g ≠ f → st' g = st g)
    (hoff : ∀ seg, Held c seg st → f ∈ c.sf → f ∉ c.ar → Recorded f seg)
    (hon : f ∈ c.ar → (st' f).tag = (st f).tag) : Stack st' trail (c :: cs) := by
  obtain ⟨seg, base, rfl, hlen, hheld, hrest⟩ := h
  exact ⟨seg, base, rfl, hlen, hheld.change hst (hoff seg hheld) hon, hrest⟩

namespace Delivered

variable {seed : Option ℕ} {flag : EventFlag} {elm f : ℕ} {s s' : Actors} {cs : List ChoicePoint}

theorem stack (hd : Delivered seed flag elm f s s') (hon : OnChain s) (hl : Laid s cs) (hb : s.b = World.topB cs)
    (hf : f ∈ s.sf) (h : Stack s.status s.trail cs) : Stack s'.status s'.trail cs := by
  cases cs with
  | nil => trivial
  | cons c cs =>
    have hsaved := hl.saved c (mem_cons_self ..)
    have huse : ∀ g, g ∈ c.sf ∨ g ∈ c.ar → g < s.localTop := fun g hg =>
      hl.lt_localTop (mem_inUse.2 (hg.imp (fun h => hsaved.1.subset h) fun h => hsaved.2.subset h))
    have hst : ∀ g, g ∈ c.sf ∨ g ∈ c.ar → g ≠ f → s'.status g = s.status g := fun g hg hne =>
      congrArg SuspFrame.status (hd.frame_of_ne (huse g hg) hne)
    have hsleepoff : ∀ {stamp}, s.status f = .sleep stamp → f ∉ c.ar := fun hsleep hfar =>
      hon.off_of_sleep hf hsleep (hsaved.2.subset hfar)
    cases hd with
    | wokenTrailed stamp outs houts _ hsleep _ _ hs =>
      obtain ⟨seg, base, htrail, hlen, hheld, hrest⟩ := h
      have htrailed := (hheld.outs houts).trailed hst (hsleepoff hsleep)
      rw [hsleep] at htrailed
      refine ⟨_, base, ?_, hlen, htrailed, hrest⟩
      rw [hs, htrail]
      simp only [cons_append, append_assoc]
    | wokenUntrailed stamp outs houts _ hsleep hnew hs =>
      have hchange : Stack s'.status s.trail (c :: cs) := by
        refine h.change hst (fun seg hheld hfsf hfar => ?_) fun hfar => absurd hfar (hsleepoff hsleep)
        -- the frame is older than the choice point, so its stamp is the choice point
        have hlt : f < s.b := by
          rw [hb]
          exact (s.lt_frameEnd f).trans_le (hl.older c (mem_cons_self ..) f (.inl hfsf))
        refine hheld.stamped f hfsf hfar (.inl ?_)
        rw [hsleep, hnew hlt, hb]
        rfl
      rw [hs] at hchange ⊢
      exact hchange.congr houts fun _ _ _ _ => rfl
    | reentered _ hsleep hexit hs =>
      have hact := hon.status_of_mem hf hsleep hexit
      have htag : (s'.status f).tag = (s.status f).tag := by
        rw [hs, setStatus_status, if_pos rfl]
        cases hst : s.status f <;> rw [hst] at hact <;> first | rfl | cases hact
      have hchange := h.change hst (fun seg hheld hfsf hfar => hheld.recorded f hfsf hfar hact) fun _ => htag
      rw [hs] at hchange ⊢
      exact hchange
    | cloned outs houts _ _ hs =>
      have hsame : ∀ c' ∈ c :: cs, ∀ g, g ∈ c'.sf ∨ g ∈ c'.ar → s'.status g = s.status g := by
        intro c' hc' g hg
        have hsaved' := hl.saved c' hc'
        have hlt : g < s.localTop := hl.lt_localTop
          (mem_inUse.2 (hg.imp (fun h => hsaved'.1.subset h) fun h => hsaved'.2.subset h))
        rw [hs]
        simp only [Actors.status, update_of_ne (Actors.ne_nextClone hlt f)]
      have hcongr := h.congr houts hsame
      rw [hs] at hcongr ⊢
      exact hcongr
    | ignored outs houts _ _ _ hs =>
      rw [hs]
      exact h.congr houts fun _ _ _ _ => rfl

end Delivered

theorem World.Good.deliver {w : World} (h : w.Good) (seed : Option ℕ) (d : Delivery) (hd : d.frame ∈ w.actors.sf) :
    World.Good { w with actors := w.actors.deliver seed d.flag d.elm d.frame } := by
  have hcases := w.actors.deliver_delivered seed d.flag d.elm d.frame
  exact ⟨hcases.onChain h.onChain h.laid hd, hcases.laid h.laid hd, hcases.b_eq.trans h.topB,
    hcases.stack h.onChain h.laid h.topB hd h.stack⟩

theorem World.Good.deliverAll {w : World} (h : w.Good) (seed : Option ℕ) (ds : List Delivery)
    (hds : ∀ d ∈ ds, d.frame ∈ w.actors.sf) : World.Good { w with actors := w.actors.deliverAll seed ds } := by
  induction ds generalizing w with
  | nil => exact h
  | cons d ds ih =>
    have hsf := (w.actors.deliver_delivered seed d.flag d.elm d.frame).sf_eq
    exact ih (h.deliver seed d (hds d (mem_cons_self ..))) fun e he =>
      hsf ▸ hds e (mem_cons_of_mem _ he)

/-! ## The activation on top of the chain -/

section Top
variable {s s' : Actors} {cs : List ChoicePoint} {f : ℕ} {rest : List ℕ}

theorem delay_cons (har : s.ar = f :: rest) :
    s.delay = if s.status f = .start then { s with sf := f :: s.sf }.setStatus f (.run 0) else s := by
  unfold Actors.delay
  split
  · next heq =>
      obtain ⟨rfl, -⟩ := List.cons.inj (har.symm.trans heq)
      rfl
  · next heq => rw [har] at heq; cases heq

theorem endDelay_cons (har : s.ar = f :: rest) :
    s.endDelay = if s.status f = .start ∨ s.status f = .clone then s else s.setStatus f .exit := by
  unfold Actors.endDelay
  split
  · next heq =>
      obtain ⟨rfl, -⟩ := List.cons.inj (har.symm.trans heq)
      rfl
  · next heq => rw [har] at heq; cases heq

theorem returnDelay_cons (har : s.ar = f :: rest) : s.returnDelay = match s.status f with
      | .exit => { s with ar := rest }
      | .clone => Actors.popLocal { s with ar := rest } f
      | .reent stamp => (Actors.connectWokenFrame { s with ar := rest } f).setStatus f (.run stamp)
      | st => Actors.setStatus { s with ar := rest } f (.sleep st.stamp) := by
  unfold Actors.returnDelay
  split
  · next heq => rw [har] at heq; cases heq
  · next heq =>
      obtain ⟨rfl, rfl⟩ := List.cons.inj (har.symm.trans heq)
      rfl

theorem returnCommit_cons (har : s.ar = f :: rest) :
    s.returnCommit = if s.status f = .start ∨ s.status f = .clone then Actors.popLocal { s with ar := rest } f
      else { s with ar := rest } := by
  unfold Actors.returnCommit
  split
  · next heq => rw [har] at heq; cases heq
  · next heq =>
      obtain ⟨rfl, rfl⟩ := List.cons.inj (har.symm.trans heq)
      rfl

theorem Laid.top_off (h : Laid s cs) (har : s.ar = f :: rest) (hon : OnChain s)
    (hleft : ∀ c ∈ cs, c.ar.length < s.ar.length) : ∀ c ∈ cs, c.ar <:+ rest ∧ f ∉ c.ar := by
  intro c hc
  have hsuffix := (h.saved c hc).2
  have hnodup := hon.nodup
  rw [har] at hsuffix hnodup
  rcases suffix_cons_iff.1 hsuffix with heq | hrest
  · have := hleft c hc
    rw [heq, har] at this
    exact absurd this (lt_irrefl _)
  · exact ⟨hrest, fun hf => (nodup_cons.1 hnodup).1 (hrest.subset hf)⟩

theorem OnChain.pop (h : OnChain s) (har : s.ar = f :: rest) (har' : s'.ar = rest) (hsf : s'.sf = s.sf)
    (hst : ∀ g ∈ s.inUse, g ≠ f → s'.status g = s.status g)
    (hnew : f ∈ s.sf → s'.status f ≠ .start ∧ s'.status f ≠ .clone ∧ (s'.status f).isActive = false) :
    OnChain s' := by
  have hnodup := nodup_cons.1 (har ▸ h.nodup)
  have hmem : ∀ {g}, g ∈ rest → g ∈ s.ar := fun hg => har ▸ mem_cons_of_mem _ hg
  refine ⟨har' ▸ hnodup.2, ?_, ?_, ?_, ?_⟩ <;> rw [hsf]
  · intro g hg
    by_cases hgf : g = f
    · exact hgf ▸ ⟨(hnew (hgf ▸ hg)).1, (hnew (hgf ▸ hg)).2.1⟩
    · exact hst g (mem_inUse.2 (.inl hg)) hgf ▸ h.delayed g hg
  · intro g hg hgar
    rw [har'] at hgar
    have hgf : g ≠ f := fun hgf => hnodup.1 (hgf ▸ hgar)
    exact hst g (mem_inUse.2 (.inl hg)) hgf ▸ h.awake g hg (hmem hgar)
  · intro g hg ha
    by_cases hgf : g = f
    · rw [hgf, (hnew (hgf ▸ hg)).2.2] at ha
      cases ha
    · have hgar := h.active g hg (hst g (mem_inUse.2 (.inl hg)) hgf ▸ ha)
      rw [har] at hgar
      exact har' ▸ (mem_cons.1 hgar).resolve_left hgf
  · intro g hgar hg
    rw [har'] at hgar
    have hgf : g ≠ f := fun hgf => hnodup.1 (hgf ▸ hgar)
    exact hst g (mem_inUse.2 (.inr (hmem hgar))) hgf ▸ h.fresh g (hmem hgar) hg

theorem Laid.pop (h : Laid s cs) (har : s.ar = f :: rest) (har' : s'.ar = rest) (hsf : s'.sf = s.sf)
    (hsame : ∀ g, SameExtent s s' g) (htop : s'.localTop = s.localTop) (hoff : ∀ c ∈ cs, c.ar <:+ rest) :
    Laid s' cs := by
  have huse : s'.inUse ⊆ s.inUse := by
    intro g hg
    rw [mem_inUse, hsf, har'] at hg
    rw [mem_inUse, har]
    exact hg.imp_right (mem_cons_of_mem _)
  apply h.mono huse (fun g _ => hsame g) (fun g hg => htop ▸ h.below g (huse hg)) (htop ▸ h.choice)
  intro c hc
  rw [hsf, har']
  exact ⟨(h.saved c hc).1, hoff c hc⟩

theorem Laid.popLocal (h : Laid s cs) (har : s.ar = f :: rest) (hnodup : f ∉ rest) (hf : f ∉ s.sf)
    (hoff : ∀ c ∈ cs, c.ar <:+ rest) : Laid (Actors.popLocal { s with ar := rest } f) cs := by
  have hpop : Laid { s with ar := rest } cs := h.pop har rfl rfl (fun _ => ⟨rfl, rfl⟩) rfl hoff
  unfold Actors.popLocal
  split_ifs with htop
  · have hend : s.frameEnd f = s.localTop := htop
    have hfuse : f ∈ s.inUse := mem_inUse.2 (.inr (har ▸ mem_cons_self ..))
    refine hpop.mono (fun _ hg => hg) (fun _ _ => ⟨rfl, rfl⟩) ?_ ?_ hpop.saved
    · intro g hg
      have hguse : g ∈ s.inUse := by
        rw [mem_inUse, har]
        exact (mem_inUse.1 hg).imp_right (mem_cons_of_mem _)
      have hne : g ≠ f := by
        rintro rfl
        exact (mem_inUse.1 hg).elim hf hnodup
      have hgend := h.below g hguse
      have hgb : s.frameBegin g ≤ g := Nat.sub_le _ _
      have hglt := s.lt_frameEnd g
      rcases h.apart g hguse f hfuse hne with hle | hle
      · exact hle
      · omega
    · intro c hc
      have hc' := h.choice c hc
      rcases h.clear c hc f hfuse with hle | hlt
      · omega
      · exact hlt
  · exact hpop

end Top

theorem Laid.drop {s : Actors} {cs : List ChoicePoint} (h : Laid s cs) (n : ℕ) : Laid s (cs.drop n) :=
  ⟨h.below, h.apart, fun c hc => h.choice c (mem_of_mem_drop hc),
    fun c hc => h.clear c (mem_of_mem_drop hc), fun c hc => h.older c (mem_of_mem_drop hc),
    fun c hc => h.saved c (mem_of_mem_drop hc), h.nested.drop⟩

theorem Stack.drop {s : Actors} {st : ℕ → SuspStatus} {cs : List ChoicePoint}
    (h : Stack st trail cs) (hl : Laid s cs) (n : ℕ) : Stack st trail (cs.drop n) := by
  induction n generalizing cs with
  | zero => exact h
  | succ n ih =>
    cases cs with
    | nil => trivial
    | cons c cs =>
      have hnested := (pairwise_cons.1 hl.nested).1
      exact ih (h.tail fun c₀ hc₀ => ⟨(hnested c₀ hc₀).2.1.subset, (hnested c₀ hc₀).2.2.subset⟩) (hl.drop 1)

namespace World.Good

variable {w : World} (h : w.Good)
include h

theorem lt_localTop {f : ℕ} (hf : f ∈ w.actors.inUse) : f < w.actors.localTop := h.laid.lt_localTop hf

theorem saved_mem (hc : c ∈ w.choices) {g : ℕ} (hg : g ∈ c.sf ∨ g ∈ c.ar) : g ∈ w.actors.inUse :=
  mem_inUse.2 (hg.imp (fun h' => (h.laid.saved c hc).1.subset h') fun h' => (h.laid.saved c hc).2.subset h')

theorem mem_sf {f : ℕ} (hf : f ∈ w.actors.ar) (hstart : w.actors.status f ≠ .start)
    (hclone : w.actors.status f ≠ .clone) : f ∈ w.actors.sf := by
  by_contra hsf
  exact (h.onChain.fresh f hf hsf).elim hstart hclone

theorem allocate (reep : ℕ) (args locals : List ℕ) :
    World.Good { w with actors := w.actors.allocateSusp reep args locals } := by
  have hne : ∀ g ∈ w.actors.inUse, g ≠ w.actors.localTop + args.length := fun g hg => by
    have := h.lt_localTop hg
    omega
  have hframe : ∀ g ∈ w.actors.inUse, (w.actors.allocateSusp reep args locals).frame g = w.actors.frame g :=
    fun g hg => update_of_ne (hne g hg) _ _
  refine ⟨?_, ?_, h.topB, ?_⟩
  · refine h.onChain.push (fun hf => hne _ hf rfl) rfl rfl (fun g hg => congrArg SuspFrame.status (hframe g hg))
      (.inl ?_)
    simp only [Actors.status, allocateSusp, update_self]
  · refine h.laid.push rfl rfl (fun g hg => sameExtent_of_frame (hframe g hg)) ?_ ?_
    · simp only [frameBegin, allocateSusp, update_self]
      omega
    · simp only [frameEnd, allocateSusp, update_self, le_refl]
  · exact h.stack.congr outEntries_nil fun c hc g hg =>
      congrArg SuspFrame.status (hframe g (h.saved_mem hc hg))

theorem delay (hleft : w.NoneLeft) : World.Good { w with actors := w.actors.delay } := by
  cases har : w.actors.ar with
  | nil =>
    have heq : w.actors.delay = w.actors := by rw [Actors.delay, har]
    rw [heq]
    exact h
  | cons f rest =>
    have heq := delay_cons har
    by_cases hstart : w.actors.status f = .start
    · rw [if_pos hstart] at heq
      have hfar : f ∈ w.actors.ar := har ▸ mem_cons_self ..
      have hfsf : f ∉ w.actors.sf := fun hf => (h.onChain.delayed f hf).1 hstart
      have hst : ∀ g, (w.actors.delay).status g = if f = g then .run 0 else w.actors.status g := fun g => by
        rw [heq, setStatus_status]
        rfl
      have hne : ∀ g, g ≠ f → (w.actors.delay).status g = w.actors.status g := fun g hg => by
        rw [hst, if_neg (Ne.symm hg)]
      have hself : (w.actors.delay).status f = .run 0 := by rw [hst, if_pos rfl]
      have har' : w.actors.delay.ar = w.actors.ar := by rw [heq]; rfl
      have hsf' : w.actors.delay.sf = f :: w.actors.sf := by rw [heq]; rfl
      refine ⟨⟨har' ▸ h.onChain.nodup, ?_, ?_, ?_, ?_⟩, ?_, ?_, ?_⟩
      · intro g hg
        rw [hsf'] at hg
        by_cases hgf : g = f
        · rw [hgf, hself]
          exact ⟨SuspStatus.noConfusion, SuspStatus.noConfusion⟩
        · exact hne g hgf ▸ h.onChain.delayed g ((mem_cons.1 hg).resolve_left hgf)
      · intro g hg hgar
        rw [hsf'] at hg
        by_cases hgf : g = f
        · rw [hgf, hself]
          rfl
        · exact hne g hgf ▸ h.onChain.awake g ((mem_cons.1 hg).resolve_left hgf) (har' ▸ hgar)
      · intro g hg ha
        rw [hsf'] at hg
        rw [har']
        by_cases hgf : g = f
        · exact hgf ▸ hfar
        · exact h.onChain.active g ((mem_cons.1 hg).resolve_left hgf) (hne g hgf ▸ ha)
      · intro g hgar hg
        rw [hsf'] at hg
        have hgf : g ≠ f := fun hgf => hg (hgf ▸ mem_cons_self ..)
        exact hne g hgf ▸ h.onChain.fresh g (har' ▸ hgar) fun hgsf => hg (mem_cons_of_mem _ hgsf)
      · have huse : w.actors.delay.inUse ⊆ w.actors.inUse := by
          intro g hg
          rw [mem_inUse, hsf', har', mem_cons] at hg
          rw [mem_inUse]
          rcases hg with (rfl | hg) | hg
          · exact .inr hfar
          · exact .inl hg
          · exact .inr hg
        have htop : w.actors.delay.localTop = w.actors.localTop := by rw [heq]; rfl
        refine h.laid.mono huse (fun g _ => ?_) (fun g hg => htop ▸ h.laid.below g (huse hg)) (htop ▸ h.laid.choice)
          fun c hc => ?_
        · rw [heq]
          exact sameExtent_setStatus _ f g _
        · rw [hsf', har']
          exact ⟨(h.laid.saved c hc).1.trans (suffix_cons f _), (h.laid.saved c hc).2⟩
      · rw [heq]
        exact h.topB
      · have htrail : w.actors.delay.trail = w.actors.trail := by rw [heq]; rfl
        rw [htrail]
        refine h.stack.congr outEntries_nil fun c hc g hg => hne g ?_
        rintro rfl
        rcases hg with hg | hg
        · exact hfsf ((h.laid.saved c hc).1.subset hg)
        · exact (h.laid.top_off har h.onChain hleft c hc).2 hg
    · rw [if_neg hstart] at heq
      rw [heq]
      exact h

/-- The activation on top changes the status of its own frame, which has been delayed and is running. -/
theorem stack_of_top {s' : Actors} {f : ℕ} {rest : List ℕ} (hleft : w.NoneLeft) (har : w.actors.ar = f :: rest)
    (hst : ∀ g, g ≠ f → s'.status g = w.actors.status g) (htrail : s'.trail = w.actors.trail)
    (hold : f ∈ w.actors.sf → (w.actors.status f).isActive = true ∨ s'.status f = w.actors.status f) :
    Stack s'.status s'.trail w.choices := by
  have hoff := h.laid.top_off har h.onChain hleft
  rw [htrail]
  by_cases hact : (w.actors.status f).isActive = true
  · have hstack := h.stack
    cases hcs : w.choices with
    | nil => trivial
    | cons c cs =>
      rw [hcs] at hoff hstack
      exact hstack.change (fun g _ hgf => hst g hgf) (fun seg hheld hfsf hfar => hheld.recorded f hfsf hfar hact)
        fun hfar => absurd hfar (hoff c (mem_cons_self ..)).2
  · apply h.stack.congr outEntries_nil
    intro c hc g hg
    by_cases hgf : g = f
    · subst g
      have hfsf : f ∈ c.sf := hg.resolve_right (hoff c hc).2
      exact (hold ((h.laid.saved c hc).1.subset hfsf)).resolve_left hact
    · exact hst g hgf

theorem endDelay (hleft : w.NoneLeft) : World.Good { w with actors := w.actors.endDelay } := by
  cases har : w.actors.ar with
  | nil =>
    have heq : w.actors.endDelay = w.actors := by rw [Actors.endDelay, har]
    rw [heq]
    exact h
  | cons f rest =>
    have heq := endDelay_cons har
    by_cases hfresh : w.actors.status f = .start ∨ w.actors.status f = .clone
    · rw [if_pos hfresh] at heq
      rw [heq]
      exact h
    · rw [if_neg hfresh] at heq
      rw [heq]
      have hfar : f ∈ w.actors.ar := har ▸ mem_cons_self ..
      have hfsf := h.mem_sf hfar (fun hs => hfresh (.inl hs)) fun hs => hfresh (.inr hs)
      have hst : ∀ g, g ≠ f → (w.actors.setStatus f .exit).status g = w.actors.status g := fun g hgf => by
        rw [setStatus_status, if_neg (Ne.symm hgf)]
      have hself : (w.actors.setStatus f .exit).status f = .exit := by rw [setStatus_status, if_pos rfl]
      refine ⟨h.onChain.mark hfsf hfar rfl rfl (fun g _ hgf => hst g hgf) (.inr hself), ?_, h.topB, ?_⟩
      · exact h.laid.mono (fun _ hg => hg) (fun g _ => sameExtent_setStatus _ f g _) (fun g hg => h.laid.below g hg)
          h.laid.choice h.laid.saved
      · apply h.stack_of_top hleft har hst rfl
        intro _
        by_cases hexit : w.actors.status f = .exit
        · exact .inr (hself.trans hexit.symm)
        · exact .inl (h.onChain.status_of_mem hfsf (h.onChain.awake f hfsf hfar) hexit)

theorem pop {s' : Actors} {f : ℕ} {rest : List ℕ} (hleft : w.NoneLeft) (har : w.actors.ar = f :: rest)
    (har' : s'.ar = rest) (hsf : s'.sf = w.actors.sf) (hb : s'.b = w.actors.b) (htrail : s'.trail = w.actors.trail)
    (hst : ∀ g, g ≠ f → s'.status g = w.actors.status g)
    (hnew : f ∈ w.actors.sf → s'.status f ≠ .start ∧ s'.status f ≠ .clone ∧ (s'.status f).isActive = false)
    (hold : f ∈ w.actors.sf → (w.actors.status f).isActive = true ∨ s'.status f = w.actors.status f)
    (hlaid : Laid s' w.choices) : World.Good { w with actors := s' } :=
  ⟨h.onChain.pop har har' hsf (fun g _ hgf => hst g hgf) hnew, hlaid, hb.trans h.topB,
    h.stack_of_top hleft har hst htrail hold⟩

section
variable {f : ℕ} {rest : List ℕ} (hleft : w.NoneLeft) (har : w.actors.ar = f :: rest)
include hleft har

theorem pop_dead
    (hexit : w.actors.status f = .exit) : World.Good { w with actors := { w.actors with ar := rest } } := by
  have hoff := h.laid.top_off har h.onChain hleft
  refine h.pop hleft har rfl rfl rfl rfl (fun _ _ => rfl) (fun _ => ?_) (fun _ => .inr rfl)
    (h.laid.pop har rfl rfl (fun _ => ⟨rfl, rfl⟩) rfl fun c hc => (hoff c hc).1)
  have hexit' : Actors.status { w.actors with ar := rest } f = .exit := hexit
  rw [hexit']
  exact ⟨SuspStatus.noConfusion, SuspStatus.noConfusion, rfl⟩

theorem pop_local (hfresh : w.actors.status f = .start ∨ w.actors.status f = .clone) :
    World.Good { w with actors := Actors.popLocal { w.actors with ar := rest } f } := by
  have hoff := h.laid.top_off har h.onChain hleft
  have hfsf : f ∉ w.actors.sf := fun hf => hfresh.elim (h.onChain.delayed f hf).1 (h.onChain.delayed f hf).2
  have hnodup : f ∉ rest := (nodup_cons.1 (har ▸ h.onChain.nodup)).1
  have hfields : ∀ s : Actors, (s.popLocal f).frame = s.frame ∧ (s.popLocal f).ar = s.ar ∧ (s.popLocal f).sf = s.sf ∧
      (s.popLocal f).b = s.b ∧ (s.popLocal f).trail = s.trail := by
    intro s
    unfold Actors.popLocal
    split_ifs <;> exact ⟨rfl, rfl, rfl, rfl, rfl⟩
  obtain ⟨hframe, hpar, hpsf, hpb, hptrail⟩ := hfields { w.actors with ar := rest }
  exact h.pop hleft har hpar hpsf hpb hptrail
    (fun g _ => congrArg (fun fr : ℕ → SuspFrame => (fr g).status) hframe) (fun hf => absurd hf hfsf)
    (fun hf => absurd hf hfsf) (h.laid.popLocal har hnodup hfsf fun c hc => (hoff c hc).1)

theorem returnDelay (hstart : w.actors.status f ≠ .start) : World.Good { w with actors := w.actors.returnDelay } := by
  have heq := returnDelay_cons har
  have hfar : f ∈ w.actors.ar := har ▸ mem_cons_self ..
  have hoff := h.laid.top_off har h.onChain hleft
  cases hst : w.actors.status f with
  | start => exact absurd hst hstart
  | exit =>
    rw [hst] at heq
    exact heq ▸ h.pop_dead hleft har hst
  | clone =>
    rw [hst] at heq
    exact heq ▸ h.pop_local hleft har (.inr hst)
  | sleep stamp =>
    have hfsf := h.mem_sf hfar hstart (by rw [hst]; exact SuspStatus.noConfusion)
    exact absurd hfar (h.onChain.off_of_sleep hfsf hst)
  | reent stamp =>
    rw [hst] at heq
    have hfsf := h.mem_sf hfar hstart (by rw [hst]; exact SuspStatus.noConfusion)
    have hsame : w.actors.returnDelay = w.actors.setStatus f (.run stamp) := by
      rw [heq]
      simp only [connectWokenFrame, setStatus, ← har]
    have hne : ∀ g, g ≠ f → (w.actors.setStatus f (.run stamp)).status g = w.actors.status g := fun g hgf => by
      rw [setStatus_status, if_neg (Ne.symm hgf)]
    rw [hsame]
    refine ⟨h.onChain.mark hfsf hfar rfl rfl (fun g _ hgf => hne g hgf) (.inl ?_), ?_, h.topB, ?_⟩
    · rw [setStatus_status, if_pos rfl]
      rfl
    · exact h.laid.mono (fun _ hg => hg) (fun g _ => sameExtent_setStatus _ f g _) (fun g hg => h.laid.below g hg)
        h.laid.choice h.laid.saved
    · exact h.stack_of_top hleft har hne rfl fun _ => .inl (by rw [hst]; rfl)
  | run stamp =>
    rw [hst] at heq
    have hself : w.actors.returnDelay.status f = .sleep stamp := by
      rw [heq, setStatus_status, if_pos rfl]
      rfl
    have hne : ∀ g, g ≠ f → w.actors.returnDelay.status g = w.actors.status g := fun g hgf => by
      rw [heq, setStatus_status, if_neg (Ne.symm hgf)]
      rfl
    refine h.pop hleft har (heq ▸ rfl) (heq ▸ rfl) (heq ▸ rfl) (heq ▸ rfl) hne (fun _ => ?_)
      (fun _ => .inl (by rw [hst]; rfl)) ?_
    · rw [hself]
      exact ⟨SuspStatus.noConfusion, SuspStatus.noConfusion, rfl⟩
    · refine h.laid.pop har (heq ▸ rfl) (heq ▸ rfl) (fun g => ?_) (heq ▸ rfl) fun c hc => (hoff c hc).1
      rw [heq]
      exact sameExtent_setStatus { w.actors with ar := rest } f g _

end

/-! ## The stack and the choice points -/

theorem moveTop {localTop : ℕ} (hbelow : ∀ f ∈ w.actors.inUse, w.actors.frameEnd f ≤ localTop)
    (hchoice : ∀ c ∈ w.choices, c.b < localTop) :
    World.Good { w with actors := { w.actors with localTop } } :=
  ⟨⟨h.onChain.nodup, h.onChain.delayed, h.onChain.awake, h.onChain.active, h.onChain.fresh⟩,
    h.laid.mono (fun _ hg => hg) (fun _ _ => ⟨rfl, rfl⟩) hbelow hchoice h.laid.saved, h.topB, h.stack⟩

theorem not_active_of_off {f : ℕ} (hf : f ∈ w.actors.sf) (hfar : f ∉ w.actors.ar) :
    ¬(w.actors.status f).isActive = true := fun ha => hfar (h.onChain.active f hf ha)

theorem nondet {b size : ℕ} (htop : w.actors.localTop ≤ b) (hfits : ∀ f ∈ w.actors.sf, w.actors.status f ≠ .sleep b) :
    World.Good
      { actors := { w.actors with b, localTop := b + nondetFrameSize + size }
        choices := ⟨b, w.actors.ar, w.actors.sf, w.actors.trail.length, w.actors.frame⟩ :: w.choices } := by
  have hend : ∀ f ∈ w.actors.inUse, w.actors.frameEnd f ≤ b := fun f hf => (h.laid.below f hf).trans htop
  have hlt : ∀ c ∈ w.choices, c.b < b := fun c hc => (h.laid.choice c hc).trans_le htop
  have hon : OnChain w.actors := h.onChain
  refine ⟨⟨hon.nodup, hon.delayed, hon.awake, hon.active, hon.fresh⟩, ?_, rfl, ?_⟩
  · refine ⟨fun f hf => (hend f hf).trans (by dsimp only; omega), h.laid.apart, fun c hc => ?_, fun c hc f hf => ?_,
      fun c hc f hf => ?_, fun c hc => ?_, ?_⟩
    · rcases mem_cons.1 hc with rfl | hc
      · simp only [nondetFrameSize]
        omega
      · exact (hlt c hc).trans_le (by dsimp only; omega)
    · rcases mem_cons.1 hc with rfl | hc
      · exact .inl (hend f hf)
      · exact h.laid.clear c hc f hf
    · rcases mem_cons.1 hc with rfl | hc
      · exact hend f (mem_inUse.2 hf)
      · exact h.laid.older c hc f hf
    · rcases mem_cons.1 hc with rfl | hc
      · exact ⟨suffix_refl _, suffix_refl _⟩
      · exact h.laid.saved c hc
    · exact pairwise_cons.2 ⟨fun c hc => ⟨hlt c hc, h.laid.saved c hc⟩, h.laid.nested⟩
  · refine ⟨[], w.actors.trail, rfl, rfl, ⟨fun _ _ _ => rfl, fun _ _ => ⟨fun ⟨_, hold⟩ => ?_, rfl⟩, ?_, ?_⟩,
      ⟨hon.nodup, hon.delayed, hon.awake, hon.active, hon.fresh⟩, hfits, h.stack⟩
    · exact absurd hold not_mem_nil
    · intro f hf hfar hs
      have hnot := h.not_active_of_off hf hfar
      rcases hs with hs | hs | hs
      · exact absurd hs (hfits f hf)
      · exact absurd (show (w.actors.status f).isActive = true by rw [show w.actors.status f = _ from hs]; rfl) hnot
      · exact absurd (show (w.actors.status f).isActive = true by rw [show w.actors.status f = _ from hs]; rfl) hnot
    · exact fun f hf hfar ha => absurd ha (h.not_active_of_off hf hfar)

theorem cut (n : ℕ) :
    World.Good { actors := { w.actors with b := World.topB (w.choices.drop n) }, choices := w.choices.drop n } := by
  have hon : OnChain w.actors := h.onChain
  have hl := h.laid.drop n
  exact ⟨⟨hon.nodup, hon.delayed, hon.awake, hon.active, hon.fresh⟩,
    ⟨hl.below, hl.apart, hl.choice, hl.clear, hl.older, hl.saved, hl.nested⟩, rfl, h.stack.drop h.laid n⟩

theorem fail {cs : List ChoicePoint} (hcs : w.choices = c :: cs) : World.Good
      { actors := { w.actors.undoTrailing c.t with ar := c.ar, sf := c.sf, b := c.b }, choices := c :: cs } := by
  obtain ⟨seg, base, htrail, hlen, hheld, hon, hfresh, hrest⟩ := (hcs ▸ h.stack : Stack _ _ (c :: cs))
  obtain ⟨hst, hext, hbase, htop, -⟩ := undoTrailing_spec htrail hlen
  have hl : Laid w.actors (c :: cs) := hcs ▸ h.laid
  have hundone := hheld.undone hon hfresh
  have huse : ∀ f, f ∈ c.sf ∨ f ∈ c.ar → f ∈ w.actors.inUse := fun f hf =>
    h.saved_mem (hcs ▸ mem_cons_self ..) hf
  refine ⟨?_, ?_, rfl, ?_⟩
  · refine hon.of_tag rfl rfl fun f hf => ?_
    have hst' : Actors.status { w.actors.undoTrailing c.t with ar := c.ar, sf := c.sf, b := c.b } f =
        undoneStatus f seg (w.actors.status f) := hst f
    rw [hst']
    by_cases hfar : f ∈ c.ar
    · exact (hundone.kept f hfar).2
    · rw [hheld.restored f ((mem_inUse.1 hf).resolve_right hfar) hfar]
      rfl
  · have hnested := (pairwise_cons.1 hl.nested).1
    refine hl.mono (fun f hf => huse f (mem_inUse.1 hf)) (fun f _ => hext f) (fun f hf => ?_) ?_ fun c' hc' => ?_
    · exact (hl.below f (huse f (mem_inUse.1 hf))).trans_eq htop.symm
    · exact fun c' hc' => (hl.choice c' hc').trans_eq htop.symm
    · rcases mem_cons.1 hc' with rfl | hc'
      · exact ⟨suffix_refl _, suffix_refl _⟩
      · exact (hnested c' hc').2
  · refine ⟨[], base, hbase, hlen, ?_, hon, hfresh, hrest⟩
    exact hundone.congr fun f _ => hst f

theorem undoTrailing_b {cs : List ChoicePoint} (hcs : w.choices = c :: cs) : (w.actors.undoTrailing c.t).b = c.b := by
  obtain ⟨seg, base, htrail, hlen, -⟩ := (hcs ▸ h.stack : Stack _ _ (c :: cs))
  obtain ⟨-, -, -, -, hb⟩ := undoTrailing_spec htrail hlen
  rw [hb, h.topB, hcs]
  rfl

/-! ## Every step and every run -/

theorem step {w' : World} {a : Act} (hfits : w.Fits a) (hstep : w.step a = some w') : w'.Good := by
  cases a with
  | allocate reep args locals => exact Option.some.inj hstep ▸ h.allocate reep args locals
  | delay =>
    simp only [World.step, Option.ite_none_right_eq_some] at hstep
    exact Option.some.inj hstep.2 ▸ h.delay hstep.1
  | handle seed ds =>
    simp only [World.step, Option.ite_none_right_eq_some] at hstep
    exact Option.some.inj hstep.2 ▸ h.deliverAll seed ds hstep.1
  | endDelay =>
    simp only [World.step, Option.ite_none_right_eq_some] at hstep
    exact Option.some.inj hstep.2 ▸ h.endDelay hstep.1
  | returnDelay =>
    simp only [World.step] at hstep
    split at hstep
    · next f rest har =>
        simp only [Option.ite_none_right_eq_some] at hstep
        exact Option.some.inj hstep.2 ▸ h.returnDelay hstep.1.1 har hstep.1.2
    · cases hstep
  | returnCommit =>
    simp only [World.step] at hstep
    split at hstep
    · next f rest har =>
        simp only [Option.ite_none_right_eq_some] at hstep
        obtain ⟨⟨hleft, hst⟩, hw⟩ := hstep
        rw [returnCommit_cons har] at hw
        obtain rfl := Option.some.inj hw
        by_cases hfresh : w.actors.status f = .start ∨ w.actors.status f = .clone
        · rw [if_pos hfresh]
          exact h.pop_local hleft har hfresh
        · rw [if_neg hfresh]
          exact h.pop_dead hleft har (by tauto)
    · cases hstep
  | moveTop localTop =>
    simp only [World.step, Option.ite_none_right_eq_some] at hstep
    exact Option.some.inj hstep.2 ▸ h.moveTop hstep.1.1 hstep.1.2
  | nondet b size =>
    simp only [World.step, Option.ite_none_right_eq_some] at hstep
    exact Option.some.inj hstep.2 ▸ h.nondet hstep.1 hfits
  | cut n => exact Option.some.inj hstep ▸ h.cut n
  | fail keep =>
    simp only [World.step] at hstep
    split at hstep
    · next c cs hcs =>
        have hfail := h.fail hcs
        cases keep with
        | true =>
          obtain rfl := Option.some.inj hstep
          rw [← h.undoTrailing_b hcs] at hfail
          exact hfail
        | false =>
          obtain rfl := Option.some.inj hstep
          exact hfail.cut 1
    · cases hstep

end World.Good

/-- A run in which every step fits, with the world it ends in. -/
inductive World.Runs : World → World → Prop
  | refl (w : World) : Runs w w
  | step {w w' w'' : World} {a : Act} (h : Runs w w') (hfits : w'.Fits a) (hstep : w'.step a = some w'') : Runs w w''

theorem World.Runs.good {w w' : World} (h : Runs w w') (hw : w.Good) : w'.Good := by
  induction h with
  | refl => exact hw
  | step _ hfits hstep ih => exact ih.step hfits hstep

def World.initial : World := ⟨⟨fun _ => ⟨.exit, dummyEventObject, 0, [], []⟩, [], [], 0, 0, []⟩, []⟩

theorem World.good_initial : World.initial.Good where
  onChain := ⟨nodup_nil, fun _ h => absurd h not_mem_nil, fun _ h => absurd h not_mem_nil,
    fun _ h => absurd h not_mem_nil, fun _ h => absurd h not_mem_nil⟩
  laid := ⟨fun _ h => absurd h not_mem_nil, fun _ h => absurd h not_mem_nil,
    fun _ h => absurd h not_mem_nil, fun _ h => absurd h not_mem_nil, fun _ h => absurd h not_mem_nil,
    fun _ h => absurd h not_mem_nil, List.Pairwise.nil⟩
  topB := rfl
  stack := trivial

theorem World.Good.undo_tag {w : World} (h : w.Good) (hc : c ∈ w.choices) {f : ℕ}
    (hf : f ∈ c.sf ∨ f ∈ c.ar) : ((w.actors.undoTrailing c.t).status f).tag = (c.frame f).status.tag := by
  obtain ⟨newer, cs, hcs⟩ := append_of_mem hc
  have hdrop : w.choices.drop newer.length = c :: cs := by rw [hcs, drop_left]
  obtain ⟨seg, base, htrail, hlen, hheld, hon, -⟩ : Stack _ _ (c :: cs) := hdrop ▸ h.stack.drop h.laid newer.length
  rw [(undoTrailing_spec htrail hlen).1]
  by_cases hfar : f ∈ c.ar
  · rw [undoneStatus_of_not_recorded (hheld.kept f hfar).1]
    exact (hheld.kept f hfar).2
  · rw [hheld.restored f (hf.resolve_right hfar) hfar]

end Picat
