import Picat.Event.Deliver

/-!
# Frames on the chain and on the local stack

Two invariants of every step.

* `Laid` : frames in use and choice points lie side by side below `LOCAL_TOP`, so that no call, no clone and no choice
  point is put over a frame in use.
-/

namespace Picat

open Actors Function List

/-- The chain has no frame twice; of the frames that have been delayed it has the running ones and perhaps dead ones,
and its other frames are fresh ones and clones. -/
structure OnChain (s : Actors) : Prop where
  nodup : s.ar.Nodup
  delayed : ∀ f ∈ s.sf, s.status f ≠ .start ∧ s.status f ≠ .clone
  awake : ∀ f ∈ s.sf, f ∈ s.ar → (s.status f).isSleep = false
  active : ∀ f ∈ s.sf, (s.status f).isActive = true → f ∈ s.ar
  fresh : ∀ f ∈ s.ar, f ∉ s.sf → s.status f = .start ∨ s.status f = .clone

/-- The frames in use and the choice points do not overlap and lie below `LOCAL_TOP`; what a choice point has saved is a
part of what is there. -/
structure Laid (s : Actors) (cs : List ChoicePoint) : Prop where
  below : ∀ f ∈ s.inUse, s.frameEnd f ≤ s.localTop
  apart : ∀ f ∈ s.inUse, ∀ g ∈ s.inUse, f ≠ g → s.frameEnd f ≤ s.frameBegin g ∨ s.frameEnd g ≤ s.frameBegin f
  choice : ∀ c ∈ cs, c.b < s.localTop
  clear : ∀ c ∈ cs, ∀ f ∈ s.inUse, s.frameEnd f ≤ c.b ∨ c.b < s.frameBegin f
  older : ∀ c ∈ cs, ∀ f, f ∈ c.sf ∨ f ∈ c.ar → s.frameEnd f ≤ c.b
  saved : ∀ c ∈ cs, c.sf <:+ s.sf ∧ c.ar <:+ s.ar
  nested : cs.Pairwise fun c c₀ => c₀.b < c.b ∧ c₀.sf <:+ c.sf ∧ c₀.ar <:+ c.ar

theorem Actors.lt_frameEnd (s : Actors) (f : ℕ) : f < s.frameEnd f := by
  unfold frameEnd suspFrameSize
  omega

theorem Laid.lt_localTop {s : Actors} {cs : List ChoicePoint} (h : Laid s cs) {f : ℕ} (hf : f ∈ s.inUse) :
    f < s.localTop := (s.lt_frameEnd f).trans_le (h.below f hf)

theorem Actors.mem_inUse {s : Actors} {f : ℕ} : f ∈ s.inUse ↔ f ∈ s.sf ∨ f ∈ s.ar := mem_append

/-- The words of a frame outside its header stay where they are. -/
def SameExtent (s s' : Actors) (f : ℕ) : Prop :=
  (s'.frame f).args = (s.frame f).args ∧ (s'.frame f).locals = (s.frame f).locals

section
variable {s s' : Actors} {f : ℕ}

theorem SameExtent.frameEnd (h : SameExtent s s' f) : s'.frameEnd f = s.frameEnd f := by
  rw [Actors.frameEnd, Actors.frameEnd, h.2]

theorem SameExtent.frameBegin (h : SameExtent s s' f) : s'.frameBegin f = s.frameBegin f := by
  rw [Actors.frameBegin, Actors.frameBegin, h.1]

theorem sameExtent_of_frame (h : s'.frame f = s.frame f) : SameExtent s s' f := by
  rw [SameExtent, h]
  exact ⟨rfl, rfl⟩

end

theorem sameExtent_setStatus (s : Actors) (f g : ℕ) (st : SuspStatus) : SameExtent s (s.setStatus f st) g := by
  by_cases h : g = f
  · subst g
    simp only [SameExtent, setStatus, update_self, and_self]
  · simp only [SameExtent, setStatus, update_of_ne h, and_self]

section
variable {s s' : Actors} {cs : List ChoicePoint} (h : Laid s cs)
include h

theorem Laid.mono (huse : s'.inUse ⊆ s.inUse)
    (hsame : ∀ f ∈ s'.inUse, SameExtent s s' f) (hbelow : ∀ f ∈ s'.inUse, s.frameEnd f ≤ s'.localTop)
    (hchoice : ∀ c ∈ cs, c.b < s'.localTop) (hsaved : ∀ c ∈ cs, c.sf <:+ s'.sf ∧ c.ar <:+ s'.ar) : Laid s' cs where
  below f hf := (hsame f hf).frameEnd ▸ hbelow f hf
  apart f hf g hg hne := by
    rw [(hsame f hf).frameEnd, (hsame f hf).frameBegin, (hsame g hg).frameEnd, (hsame g hg).frameBegin]
    exact h.apart f (huse hf) g (huse hg) hne
  choice := hchoice
  clear c hc f hf := by
    rw [(hsame f hf).frameEnd, (hsame f hf).frameBegin]
    exact h.clear c hc f (huse hf)
  older c hc f hf := by
    have hmem : f ∈ s'.inUse := mem_inUse.2 (hf.imp (fun h => (hsaved c hc).1.subset h)
      fun h => (hsaved c hc).2.subset h)
    rw [(hsame f hmem).frameEnd]
    exact h.older c hc f hf
  saved := hsaved
  nested := h.nested

theorem Laid.push {f : ℕ} (har : s'.ar = f :: s.ar)
    (hsf : s'.sf = s.sf) (hsame : ∀ g ∈ s.inUse, SameExtent s s' g) (hbegin : s.localTop ≤ s'.frameBegin f)
    (hend : s'.frameEnd f ≤ s'.localTop) : Laid s' cs := by
  have huse : ∀ g ∈ s'.inUse, g = f ∨ g ∈ s.inUse := by
    intro g hg
    rw [mem_inUse, hsf, har, mem_cons] at hg
    rw [mem_inUse]
    tauto
  have hle : s'.frameBegin f ≤ s'.frameEnd f := (Nat.sub_le _ _).trans (s'.lt_frameEnd f).le
  have hold : ∀ g ∈ s.inUse, s'.frameEnd g ≤ s'.frameBegin f := fun g hg =>
    (hsame g hg).frameEnd.le.trans ((h.below g hg).trans hbegin)
  have hchoice : ∀ c ∈ cs, c.b < s'.frameBegin f := fun c hc => (h.choice c hc).trans_le hbegin
  refine ⟨?_, ?_, fun c hc => (hchoice c hc).trans_le (hle.trans hend), ?_, ?_, fun c hc => ?_, h.nested⟩
  · intro g hg
    rcases huse g hg with rfl | hg
    · exact hend
    · exact (hold g hg).trans (hle.trans hend)
  · intro g hg k hk hne
    rcases huse g hg with rfl | hg <;> rcases huse k hk with rfl | hk
    · exact absurd rfl hne
    · exact .inr (hold k hk)
    · exact .inl (hold g hg)
    · rw [(hsame g hg).frameEnd, (hsame g hg).frameBegin, (hsame k hk).frameEnd, (hsame k hk).frameBegin]
      exact h.apart g hg k hk hne
  · intro c hc g hg
    rcases huse g hg with rfl | hg
    · exact .inr (hchoice c hc)
    · rw [(hsame g hg).frameEnd, (hsame g hg).frameBegin]
      exact h.clear c hc g hg
  · intro c hc g hg
    have hmem : g ∈ s.inUse := mem_inUse.2 (hg.imp (fun h' => (h.saved c hc).1.subset h')
      fun h' => (h.saved c hc).2.subset h')
    rw [(hsame g hmem).frameEnd]
    exact h.older c hc g hg
  · rw [hsf, har]
    exact ⟨(h.saved c hc).1, (h.saved c hc).2.trans (suffix_cons f s.ar)⟩

end

/-! ## Deliveries -/

section Deliver
variable {seed : Option ℕ} {flag : EventFlag} {elm f : ℕ} {s s' : Actors} {cs : List ChoicePoint}

theorem OnChain.status_of_mem (h : OnChain s) (hf : f ∈ s.sf) (hsleep : (s.status f).isSleep = false)
    (hexit : s.status f ≠ .exit) : (s.status f).isActive = true := by
  have hd := h.delayed f hf
  cases hst : s.status f <;> simp_all [SuspStatus.isActive, SuspStatus.isSleep, SuspStatus.isRun, SuspStatus.isReent]

theorem OnChain.off_of_sleep (h : OnChain s) (hf : f ∈ s.sf) {stamp : ℕ} (hst : s.status f = .sleep stamp) :
    f ∉ s.ar := fun har => by
  have := h.awake f hf har
  rw [hst] at this
  cases this

theorem SuspStatus.isActive_iff {st : SuspStatus} :
    st.isActive = true ↔ st.isSleep = false ∧ st ≠ .exit ∧ st ≠ .start ∧ st ≠ .clone := by
  cases st <;> simp [isActive, isSleep, isRun, isReent]

/-- A delayed frame that is on the chain now gets a status that fits. -/
theorem OnChain.change (h : OnChain s) (hf : f ∈ s.sf) (hnodup : s'.ar.Nodup) (har : ∀ g, g ∈ s'.ar ↔ g = f ∨ g ∈ s.ar)
    (hsf : s'.sf = s.sf) (hst : ∀ g ∈ s.inUse, g ≠ f → s'.status g = s.status g)
    (hnew : (s'.status f).isSleep = false ∧ s'.status f ≠ .start ∧ s'.status f ≠ .clone) : OnChain s' := by
  refine ⟨hnodup, ?_, ?_, ?_, ?_⟩ <;> rw [hsf]
  · intro g hg
    by_cases hgf : g = f
    · exact hgf ▸ hnew.2
    · exact hst g (mem_inUse.2 (.inl hg)) hgf ▸ h.delayed g hg
  · intro g hg hgar
    by_cases hgf : g = f
    · exact hgf ▸ hnew.1
    · exact hst g (mem_inUse.2 (.inl hg)) hgf ▸ h.awake g hg (((har g).1 hgar).resolve_left hgf)
  · intro g hg hgact
    rw [har]
    by_cases hgf : g = f
    · exact .inl hgf
    · exact .inr (h.active g hg (hst g (mem_inUse.2 (.inl hg)) hgf ▸ hgact))
  · intro g hgar hg
    have hgf : g ≠ f := fun hgf => hg (hgf ▸ hf)
    have hgar' := ((har g).1 hgar).resolve_left hgf
    exact hst g (mem_inUse.2 (.inr hgar')) hgf ▸ h.fresh g hgar' hg

theorem OnChain.wake (h : OnChain s) (hf : f ∈ s.sf) (hoff : f ∉ s.ar) (har : s'.ar = f :: s.ar) (hsf : s'.sf = s.sf)
    (hst : ∀ g ∈ s.inUse, g ≠ f → s'.status g = s.status g) (hact : (s'.status f).isActive = true) : OnChain s' := by
  have hact' := SuspStatus.isActive_iff.1 hact
  exact h.change hf (har ▸ nodup_cons.2 ⟨hoff, h.nodup⟩) (fun g => by rw [har, mem_cons]) hsf hst ⟨hact'.1, hact'.2.2⟩

theorem OnChain.mark (h : OnChain s) (hf : f ∈ s.sf) (hon : f ∈ s.ar) (har : s'.ar = s.ar) (hsf : s'.sf = s.sf)
    (hst : ∀ g ∈ s.inUse, g ≠ f → s'.status g = s.status g)
    (hnew : (s'.status f).isActive = true ∨ s'.status f = .exit) : OnChain s' := by
  have hin : ∀ g, g ∈ s'.ar ↔ g = f ∨ g ∈ s.ar := fun g => by
    rw [har]
    exact ⟨.inr, fun hg => hg.elim (fun hgf => hgf ▸ hon) id⟩
  refine h.change hf (har ▸ h.nodup) hin hsf hst ?_
  rcases hnew with hact | hexit
  · have hact' := SuspStatus.isActive_iff.1 hact
    exact ⟨hact'.1, hact'.2.2⟩
  · rw [hexit]
    exact ⟨rfl, SuspStatus.noConfusion, SuspStatus.noConfusion⟩

theorem OnChain.push (h : OnChain s) (hf : f ∉ s.inUse) (har : s'.ar = f :: s.ar) (hsf : s'.sf = s.sf)
    (hst : ∀ g ∈ s.inUse, s'.status g = s.status g) (hnew : s'.status f = .start ∨ s'.status f = .clone) :
    OnChain s' := by
  have hnot : f ∉ s.sf ∧ f ∉ s.ar := by
    rw [mem_inUse] at hf
    tauto
  refine ⟨har ▸ nodup_cons.2 ⟨hnot.2, h.nodup⟩, ?_, ?_, ?_, ?_⟩ <;> rw [hsf]
  · intro g hg
    exact hst g (mem_inUse.2 (.inl hg)) ▸ h.delayed g hg
  · intro g hg hgar
    rw [har] at hgar
    exact hst g (mem_inUse.2 (.inl hg)) ▸
      h.awake g hg ((mem_cons.1 hgar).resolve_left fun hgf => hnot.1 (hgf ▸ hg))
  · intro g hg hgact
    rw [har]
    exact mem_cons_of_mem _ (h.active g hg (hst g (mem_inUse.2 (.inl hg)) ▸ hgact))
  · intro g hgar hg
    rw [har] at hgar
    rcases mem_cons.1 hgar with rfl | hgar
    · exact hnew
    · exact hst g (mem_inUse.2 (.inr hgar)) ▸ h.fresh g hgar hg

theorem Delivered.onChain (hd : Delivered seed flag elm f s s') (h : OnChain s) (hl : Laid s cs) (hf : f ∈ s.sf) :
    OnChain s' := by
  have hlt : ∀ g ∈ s.inUse, g < s.localTop := fun g hg => hl.lt_localTop hg
  have hst : ∀ g ∈ s.inUse, g ≠ f → s'.status g = s.status g := fun g hg hne =>
    congrArg SuspFrame.status (hd.frame_of_ne (hlt g hg) hne)
  have hsf := hd.sf_eq
  cases hd with
  | wokenTrailed _ _ _ _ hsleep _ _ hs =>
    apply h.wake hf (h.off_of_sleep hf hsleep) (hs ▸ rfl) hsf hst
    subst s'
    simp only [Actors.status, update_self]
    rfl
  | wokenUntrailed _ _ _ _ hsleep _ hs =>
    apply h.wake hf (h.off_of_sleep hf hsleep) (hs ▸ rfl) hsf hst
    subst s'
    simp only [Actors.status, update_self]
    rfl
  | reentered _ hsleep hexit hs =>
    have hact := h.status_of_mem hf hsleep hexit
    refine h.mark hf (h.active f hf hact) (hs ▸ rfl) hsf hst (.inl ?_)
    subst s'
    simp only [Actors.status, Actors.setStatus, update_self] at hact ⊢
    cases hsf : (s.frame f).status <;> rw [hsf] at hact <;> first | rfl | cases hact
  | cloned _ _ _ _ hs =>
    refine h.push (fun hmem => Actors.ne_nextClone (hlt _ hmem) f rfl) (hs ▸ rfl) hsf (fun g hg => ?_) (.inr ?_)
    · subst s'
      simp only [Actors.status, update_of_ne (Actors.ne_nextClone (hlt g hg) f)]
    · subst s'
      simp only [Actors.status, update_self]
  | ignored _ _ _ _ _ hs =>
    subst s'
    exact ⟨h.nodup, h.delayed, h.awake, h.active, h.fresh⟩

theorem Delivered.laid (hd : Delivered seed flag elm f s s') (hl : Laid s cs) (hf : f ∈ s.sf) : Laid s' cs := by
  have hfuse : f ∈ s.inUse := mem_inUse.2 (.inl hf)
  have hwoken : s'.ar = f :: s.ar → s'.localTop = s.localTop → (∀ g, SameExtent s s' g) → Laid s' cs := by
    intro har htop hsame
    have huse : s'.inUse ⊆ s.inUse := by
      intro g hg
      rw [mem_inUse, hd.sf_eq, har, mem_cons] at hg
      rcases hg with hg | rfl | hg
      · exact mem_inUse.2 (.inl hg)
      · exact hfuse
      · exact mem_inUse.2 (.inr hg)
    apply hl.mono huse (fun g _ => hsame g) (fun g hg => htop ▸ hl.below g (huse hg)) (htop ▸ hl.choice)
    intro c hc
    rw [hd.sf_eq, har]
    exact ⟨(hl.saved c hc).1, (hl.saved c hc).2.trans (suffix_cons f s.ar)⟩
  cases hd with
  | wokenTrailed _ _ _ _ _ _ _ hs =>
    apply hwoken (hs ▸ rfl) (hs ▸ rfl)
    intro g
    subst s'
    by_cases hg : g = f
    · subst g
      simp only [SameExtent, update_self, and_self]
    · exact sameExtent_of_frame (update_of_ne hg _ _)
  | wokenUntrailed _ _ _ _ _ _ hs =>
    apply hwoken (hs ▸ rfl) (hs ▸ rfl)
    intro g
    subst s'
    by_cases hg : g = f
    · subst g
      simp only [SameExtent, update_self, and_self]
    · exact sameExtent_of_frame (update_of_ne hg _ _)
  | reentered _ _ _ hs =>
    subst s'
    exact hl.mono (fun _ h => h) (fun g _ => sameExtent_setStatus s f g _) (fun g hg => hl.below g hg) hl.choice
      hl.saved
  | cloned _ _ _ _ hs =>
    subst s'
    refine hl.push rfl rfl (fun g hg => ?_) ?_ ?_
    · exact sameExtent_of_frame (update_of_ne (Actors.ne_nextClone (hl.lt_localTop hg) f) _ _)
    · simp only [frameBegin, update_self, nextClone]
      omega
    · simp only [frameEnd, update_self, le_refl]
  | ignored _ _ _ _ _ hs =>
    subst s'
    exact hl.mono (fun _ h => h) (fun g _ => ⟨rfl, rfl⟩) (fun g hg => hl.below g hg) hl.choice hl.saved

end Deliver

/-! # Status words across choice points -/

/-! ## Undoing a part of the trail -/

/-- The status of the frame, once these entries are undone, the first one first. -/
def undoneStatus (f : ℕ) : List TrailEntry → SuspStatus → SuspStatus
  | [], st => st
  | .status g old :: es, st => undoneStatus f es (if g = f then old else st)
  | .out _ _ :: es, st | .link _ _ :: es, st => undoneStatus f es st

def Recorded (f : ℕ) (es : List TrailEntry) : Prop := ∃ old, .status f old ∈ es

theorem undoneStatus_append (f : ℕ) (es es' : List TrailEntry) (st : SuspStatus) :
    undoneStatus f (es ++ es') st = undoneStatus f es' (undoneStatus f es st) := by
  induction es generalizing st with
  | nil => rfl
  | cons e es ih => cases e <;> exact ih _

theorem undoneStatus_of_recorded {f : ℕ} {es : List TrailEntry} (h : Recorded f es) (st st' : SuspStatus) :
    undoneStatus f es st = undoneStatus f es st' := by
  induction es generalizing st st' with
  | nil =>
    obtain ⟨old, hold⟩ := h
    cases hold
  | cons e es ih =>
    by_cases hes : Recorded f es
    · cases e <;> exact ih hes _ _
    · obtain ⟨old, hold⟩ := h
      rcases mem_cons.1 hold with rfl | hold
      · simp only [undoneStatus, if_true]
      · exact absurd ⟨old, hold⟩ hes

theorem undoneStatus_of_not_recorded {f : ℕ} {es : List TrailEntry} (h : ¬Recorded f es) (st : SuspStatus) :
    undoneStatus f es st = st := by
  induction es generalizing st with
  | nil => rfl
  | cons e es ih =>
    have hes : ¬Recorded f es := fun ⟨old, hold⟩ => h ⟨old, mem_cons_of_mem _ hold⟩
    cases e with
    | status g old =>
      have hg : g ≠ f := fun hg => h ⟨old, hg ▸ mem_cons_self ..⟩
      rw [undoneStatus, if_neg hg]
      exact ih hes st
    | out g o => exact ih hes st
    | link a l => exact ih hes st

theorem not_recorded_outs {outs : List TrailEntry} (h : OutEntries outs) (f : ℕ) : ¬Recorded f outs := by
  intro hp
  obtain ⟨old, hold⟩ := hp
  obtain ⟨g, o, ho⟩ := h _ hold
  cases ho

theorem recorded_append {f : ℕ} {es es' : List TrailEntry} :
    Recorded f (es ++ es') ↔ Recorded f es ∨ Recorded f es' := by
  simp only [Recorded, mem_append, exists_or]

theorem setStatus_status (s : Actors) (g f : ℕ) (st : SuspStatus) :
    (s.setStatus g st).status f = if g = f then st else s.status f := by
  by_cases h : g = f
  · subst h
    simp only [Actors.status, setStatus, update_self, if_true]
  · simp only [Actors.status, setStatus, update_of_ne (Ne.symm h), if_neg h]

theorem setOut_status (s : Actors) (g f elm : ℕ) : (s.setOut g elm).status f = s.status f := by
  by_cases h : f = g
  · subst h
    simp only [Actors.status, setOut, update_self]
  · simp only [Actors.status, setOut, update_of_ne h]

theorem sameExtent_setOut (s : Actors) (f g elm : ℕ) : SameExtent s (s.setOut f elm) g := by
  by_cases h : g = f
  · subst g
    simp only [SameExtent, setOut, update_self, and_self]
  · exact sameExtent_of_frame (update_of_ne h _ _)

theorem SameExtent.trans {s s' s'' : Actors} {f : ℕ} (h : SameExtent s s' f) (h' : SameExtent s' s'' f) :
    SameExtent s s'' f := ⟨h'.1.trans h.1, h'.2.trans h.2⟩

theorem foldl_undoEntry (es : List TrailEntry) (s : Actors) :
    (∀ f, (es.foldl undoEntry s).status f = undoneStatus f es (s.status f)) ∧
      (∀ f, SameExtent s (es.foldl undoEntry s) f) ∧ (es.foldl undoEntry s).trail = s.trail ∧
      (es.foldl undoEntry s).localTop = s.localTop ∧ (es.foldl undoEntry s).b = s.b := by
  induction es generalizing s with
  | nil => exact ⟨fun _ => rfl, fun _ => ⟨rfl, rfl⟩, rfl, rfl, rfl⟩
  | cons e es ih =>
    obtain ⟨hst, hext, htrail, htop, hb⟩ := ih (s.undoEntry e)
    cases e with
    | status g old =>
      refine ⟨fun f => ?_, fun f => (sameExtent_setStatus s g f old).trans (hext f), htrail, htop, hb⟩
      exact (hst f).trans (by rw [undoEntry, setStatus_status, undoneStatus])
    | out g o =>
      refine ⟨fun f => ?_, fun f => (sameExtent_setOut s g f o).trans (hext f), htrail, htop, hb⟩
      exact (hst f).trans (by rw [undoEntry, setOut_status, undoneStatus])
    | link a l => exact ⟨hst, hext, htrail, htop, hb⟩

theorem undoTrailing_spec {s : Actors} {seg base : List TrailEntry} {t : ℕ} (h : s.trail = seg ++ base)
    (ht : base.length = t) :
    (∀ f, (s.undoTrailing t).status f = undoneStatus f seg (s.status f)) ∧
      (∀ f, SameExtent s (s.undoTrailing t) f) ∧ (s.undoTrailing t).trail = base ∧
      (s.undoTrailing t).localTop = s.localTop ∧ (s.undoTrailing t).b = s.b := by
  have hn : s.trail.length - t = seg.length := by
    rw [h, length_append]
    omega
  have htake : s.trail.take seg.length = seg := by rw [h, take_left]
  have hdrop : s.trail.drop seg.length = base := by rw [h, drop_left]
  have hundo : s.undoTrailing t = seg.foldl undoEntry { s with trail := base } := by
    rw [undoTrailing, hn, htake, hdrop]
  rw [hundo]
  exact foldl_undoEntry seg { s with trail := base }

/-! ## What a choice point can count on -/

/-- The tag of a status word, where `RUN` and `REENT` are one: the frame is running. -/
inductive StatusTag
  | start
  | asleep
  | running
  | dead
  | clone
  deriving DecidableEq

def SuspStatus.tag : SuspStatus → StatusTag
  | start => .start
  | sleep _ => .asleep
  | run _ | reent _ => .running
  | exit => .dead
  | clone => .clone

def SuspStatus.HasStamp (st : SuspStatus) (b : ℕ) : Prop := st = .sleep b ∨ st = .run b ∨ st = .reent b

/-- The choice point and the trail above it, against the statuses now: a frame that was off the chain then is as it was, or
its old status is on the trail; a frame that was on the chain still is. -/
structure Held (c : ChoicePoint) (seg : List TrailEntry) (st : ℕ → SuspStatus) : Prop where
  restored : ∀ f ∈ c.sf, f ∉ c.ar → undoneStatus f seg (st f) = (c.frame f).status
  kept : ∀ f ∈ c.ar, ¬Recorded f seg ∧ (st f).tag = (c.frame f).status.tag
  stamped : ∀ f ∈ c.sf, f ∉ c.ar → (st f).HasStamp c.b → Recorded f seg
  recorded : ∀ f ∈ c.sf, f ∉ c.ar → (st f).isActive = true → Recorded f seg

namespace Held

variable {c : ChoicePoint} {seg : List TrailEntry} {st st' : ℕ → SuspStatus} {f : ℕ}

theorem outs {outs : List TrailEntry} (h : Held c seg st) (houts : OutEntries outs) : Held c (outs ++ seg) st where
  restored g hg hgar := by
    rw [undoneStatus_append, undoneStatus_of_not_recorded (not_recorded_outs houts g)]
    exact h.restored g hg hgar
  kept g hg := ⟨fun hr => (recorded_append.1 hr).elim (not_recorded_outs houts g) (h.kept g hg).1, (h.kept g hg).2⟩
  stamped g hg hgar hs := recorded_append.2 (.inr (h.stamped g hg hgar hs))
  recorded g hg hgar ha := recorded_append.2 (.inr (h.recorded g hg hgar ha))

theorem change (h : Held c seg st) (hst : ∀ g, g ∈ c.sf ∨ g ∈ c.ar → g ≠ f → st' g = st g)
    (hoff : f ∈ c.sf → f ∉ c.ar → Recorded f seg) (hon : f ∈ c.ar → (st' f).tag = (st f).tag) : Held c seg st' where
  restored g hg hgar := by
    by_cases hgf : g = f
    · subst g
      rw [undoneStatus_of_recorded (hoff hg hgar) _ (st f)]
      exact h.restored f hg hgar
    · rw [hst g (.inl hg) hgf]
      exact h.restored g hg hgar
  kept g hg := by
    refine ⟨(h.kept g hg).1, ?_⟩
    by_cases hgf : g = f
    · subst g
      rw [hon hg]
      exact (h.kept f hg).2
    · rw [hst g (.inr hg) hgf]
      exact (h.kept g hg).2
  stamped g hg hgar hs := by
    by_cases hgf : g = f
    · exact hgf ▸ hoff (hgf ▸ hg) (hgf ▸ hgar)
    · exact h.stamped g hg hgar (hst g (.inl hg) hgf ▸ hs)
  recorded g hg hgar ha := by
    by_cases hgf : g = f
    · exact hgf ▸ hoff (hgf ▸ hg) (hgf ▸ hgar)
    · exact h.recorded g hg hgar (hst g (.inl hg) hgf ▸ ha)

theorem congr (h : Held c seg st) (hst : ∀ g, g ∈ c.sf ∨ g ∈ c.ar → st' g = st g) : Held c seg st' where
  restored g hg hgar := hst g (.inl hg) ▸ h.restored g hg hgar
  kept g hg := hst g (.inr hg) ▸ h.kept g hg
  stamped g hg hgar hs := h.stamped g hg hgar (hst g (.inl hg) ▸ hs)
  recorded g hg hgar ha := h.recorded g hg hgar (hst g (.inl hg) ▸ ha)

theorem trailed (h : Held c seg st) (hst : ∀ g, g ∈ c.sf ∨ g ∈ c.ar → g ≠ f → st' g = st g) (hoff : f ∉ c.ar) :
    Held c (.status f (st f) :: seg) st' := by
  have hrec : ∀ {g}, Recorded g seg → Recorded g (.status f (st f) :: seg) := fun ⟨old, hold⟩ =>
    ⟨old, mem_cons_of_mem _ hold⟩
  refine ⟨fun g hg hgar => ?_, fun g hg => ?_, fun g hg hgar hs => ?_, fun g hg hgar ha => ?_⟩
  · by_cases hgf : g = f
    · subst g
      rw [undoneStatus, if_pos rfl]
      exact h.restored f hg hgar
    · rw [undoneStatus, if_neg (Ne.symm hgf), hst g (.inl hg) hgf]
      exact h.restored g hg hgar
  · have hgf : g ≠ f := fun hgf => hoff (hgf ▸ hg)
    refine ⟨fun ⟨old, hold⟩ => ?_, hst g (.inr hg) hgf ▸ (h.kept g hg).2⟩
    rcases mem_cons.1 hold with heq | hold
    · exact hgf (TrailEntry.status.inj heq).1
    · exact (h.kept g hg).1 ⟨old, hold⟩
  · by_cases hgf : g = f
    · exact ⟨st f, hgf ▸ mem_cons_self ..⟩
    · exact hrec (h.stamped g hg hgar (hst g (.inl hg) hgf ▸ hs))
  · by_cases hgf : g = f
    · exact ⟨st f, hgf ▸ mem_cons_self ..⟩
    · exact hrec (h.recorded g hg hgar (hst g (.inl hg) hgf ▸ ha))

end Held

/-! ## The stack of choice points -/

/-- The frames, the chain and the suspension frames at the creation of the choice point. -/
def ChoicePoint.before (c : ChoicePoint) : Actors := ⟨c.frame, c.ar, c.sf, c.b, c.b, []⟩

/-- What a choice point can count on, for the one on top now, and for the others when the next one was created. -/
def Stack : (ℕ → SuspStatus) → List TrailEntry → List ChoicePoint → Prop
  | _, _, [] => True
  | st, trail, c :: cs => ∃ seg base, trail = seg ++ base ∧ base.length = c.t ∧ Held c seg st ∧ OnChain c.before ∧
      (∀ f ∈ c.sf, c.before.status f ≠ .sleep c.b) ∧ Stack c.before.status base cs

theorem OnChain.of_tag {s s' : Actors} (h : OnChain s) (har : s'.ar = s.ar) (hsf : s'.sf = s.sf)
    (htag : ∀ f ∈ s.inUse, (s'.status f).tag = (s.status f).tag) : OnChain s' := by
  have hstart : ∀ st : SuspStatus, st = .start ↔ st.tag = .start := fun st => by cases st <;> simp [SuspStatus.tag]
  have hclone : ∀ st : SuspStatus, st = .clone ↔ st.tag = .clone := fun st => by cases st <;> simp [SuspStatus.tag]
  have hsleep : ∀ st : SuspStatus, st.isSleep = false ↔ st.tag ≠ .asleep := fun st => by
    cases st <;> simp [SuspStatus.tag, SuspStatus.isSleep]
  have hact : ∀ st : SuspStatus, st.isActive = true ↔ st.tag = .running := fun st => by
    cases st <;> simp [SuspStatus.tag, SuspStatus.isActive, SuspStatus.isRun, SuspStatus.isReent]
  have hsfuse : ∀ f ∈ s.sf, (s'.status f).tag = (s.status f).tag := fun f hf => htag f (mem_inUse.2 (.inl hf))
  refine ⟨har ▸ h.nodup, ?_, ?_, ?_, ?_⟩ <;> rw [hsf]
  · intro f hf
    rw [Ne, Ne, hstart, hclone, hsfuse f hf, ← hstart, ← hclone]
    exact h.delayed f hf
  · intro f hf hfar
    rw [hsleep, hsfuse f hf, ← hsleep]
    exact h.awake f hf (har ▸ hfar)
  · intro f hf ha
    rw [hact, hsfuse f hf, ← hact] at ha
    exact har ▸ h.active f hf ha
  · intro f hfar hf
    rw [har] at hfar
    rw [hstart, hclone, htag f (mem_inUse.2 (.inr hfar)), ← hstart, ← hclone]
    exact h.fresh f hfar hf

theorem Held.comp {c c₀ : ChoicePoint} {seg seg₀ : List TrailEntry} {st : ℕ → SuspStatus} (h : Held c seg st)
    (h₀ : Held c₀ seg₀ c.before.status) (hon : OnChain c.before) (hsf : c₀.sf ⊆ c.sf) (har : c₀.ar ⊆ c.ar) :
    Held c₀ (seg ++ seg₀) st := by
  -- a frame that was off the chain at the older one and on it at the newer one had been woken in between
  have hbetween : ∀ f ∈ c₀.sf, f ∉ c₀.ar → f ∈ c.ar → Recorded f seg₀ ∨ c.before.status f = .exit := by
    intro f hf hfar₀ hfar
    by_cases hexit : c.before.status f = .exit
    · exact .inr hexit
    · exact .inl (h₀.recorded f hf hfar₀ (hon.status_of_mem (hsf hf) (hon.awake f (hsf hf) hfar) hexit))
  have hdead : ∀ f ∈ c.ar, c.before.status f = .exit → st f = .exit := by
    intro f hf hexit
    have htag : (st f).tag = (c.before.status f).tag := (h.kept f hf).2
    rw [hexit] at htag
    cases hst : st f <;> rw [hst] at htag <;> first | rfl | cases htag
  have hsame : ∀ f ∈ c₀.sf, f ∉ c.ar → ¬Recorded f seg → st f = c.before.status f := by
    intro f hf hfar hrec
    have := h.restored f (hsf hf) hfar
    rwa [undoneStatus_of_not_recorded hrec] at this
  refine ⟨fun f hf hfar₀ => ?_, fun f hf => ?_, fun f hf hfar₀ hs => ?_, fun f hf hfar₀ ha => ?_⟩
  · rw [undoneStatus_append]
    by_cases hfar : f ∈ c.ar
    · rw [undoneStatus_of_not_recorded (h.kept f hfar).1]
      rcases hbetween f hf hfar₀ hfar with hrec | hexit
      · rw [undoneStatus_of_recorded hrec _ (c.before.status f)]
        exact h₀.restored f hf hfar₀
      · rw [hdead f hfar hexit, ← hexit]
        exact h₀.restored f hf hfar₀
    · rw [h.restored f (hsf hf) hfar]
      exact h₀.restored f hf hfar₀
  · refine ⟨fun hr => (recorded_append.1 hr).elim (h.kept f (har hf)).1 (h₀.kept f hf).1, ?_⟩
    exact (h.kept f (har hf)).2.trans (h₀.kept f hf).2
  · rw [recorded_append]
    by_cases hfar : f ∈ c.ar
    · rcases hbetween f hf hfar₀ hfar with hrec | hexit
      · exact .inr hrec
      · rw [hdead f hfar hexit] at hs
        rcases hs with hs | hs | hs <;> cases hs
    · by_cases hrec : Recorded f seg
      · exact .inl hrec
      · exact .inr (h₀.stamped f hf hfar₀ (hsame f hf hfar hrec ▸ hs))
  · rw [recorded_append]
    by_cases hfar : f ∈ c.ar
    · rcases hbetween f hf hfar₀ hfar with hrec | hexit
      · exact .inr hrec
      · rw [hdead f hfar hexit] at ha
        cases ha
    · exact .inl (h.recorded f (hsf hf) hfar ha)

theorem Stack.tail {st : ℕ → SuspStatus} {trail : List TrailEntry} {c : ChoicePoint} {cs : List ChoicePoint}
    (h : Stack st trail (c :: cs)) (hnested : ∀ c₀ ∈ cs, c₀.sf ⊆ c.sf ∧ c₀.ar ⊆ c.ar) : Stack st trail cs := by
  obtain ⟨seg, base, htrail, -, hheld, hon, -, hrest⟩ := h
  cases cs with
  | nil => trivial
  | cons c₀ cs =>
    obtain ⟨seg₀, base₀, hbase, hlen, hheld₀, hrest₀⟩ := hrest
    obtain ⟨hsf, har⟩ := hnested c₀ (mem_cons_self ..)
    refine ⟨seg ++ seg₀, base₀, ?_, hlen, hheld.comp hheld₀ hon hsf har, hrest₀⟩
    rw [htrail, hbase, append_assoc]

theorem Held.undone {c : ChoicePoint} {seg : List TrailEntry} {st : ℕ → SuspStatus} (h : Held c seg st)
    (hon : OnChain c.before) (hfresh : ∀ f ∈ c.sf, c.before.status f ≠ .sleep c.b) :
    Held c [] fun f => undoneStatus f seg (st f) := by
  have hoff : ∀ f ∈ c.sf, f ∉ c.ar → ¬(c.before.status f).isActive = true := fun f hf hfar ha =>
    hfar (hon.active f hf ha)
  refine ⟨fun f hf hfar => h.restored f hf hfar, fun f hf => ⟨fun ⟨_, hold⟩ => absurd hold not_mem_nil, ?_⟩,
    fun f hf hfar hs => ?_, fun f hf hfar ha => ?_⟩
  · rw [undoneStatus_of_not_recorded (h.kept f hf).1]
    exact (h.kept f hf).2
  · have hs' : (c.before.status f).HasStamp c.b := by rwa [h.restored f hf hfar] at hs
    rcases hs' with hs | hs | hs
    · exact absurd hs (hfresh f hf)
    · exact absurd (by rw [hs]; rfl) (hoff f hf hfar)
    · exact absurd (by rw [hs]; rfl) (hoff f hf hfar)
  · rw [h.restored f hf hfar] at ha
    exact absurd ha (hoff f hf hfar)

end Picat
