import Picat.Smt.Dump

/-!
# Steps of the dump

* one lemma for each assertion that is written.
-/

namespace Picat.Smt
open FreshVariables List

def Dump.Sat (st : Dump) (τ : ℕ → ℤ) : Prop := ∀ f ∈ st.out, f.Holds τ

instance (st : Dump) (τ : ℕ → ℤ) : Decidable (st.Sat τ) := inferInstanceAs (Decidable (∀ f ∈ st.out, f.Holds τ))

/-- The operand is declared, and the assertions give it a truth value. -/
structure IsBool (st : Dump) (b : Opd) : Prop where
  below : b.Below st.next
  bit : ∀ τ, st.Sat τ → b.val τ = 0 ∨ b.val τ = 1
  const : ∀ z, b = .int z → z = 0 ∨ z = 1

/-- `tab` is the table that the dump began with; a variable that was added to it is defined by an assertion. -/
structure Dump.Inv (tab : Table) (st : Dump) : Prop where
  loc : Local st.next st.Sat
  keeps : ∀ i a b, tab i a = some b → st.table i a = some b
  isBool : ∀ i a b, st.table i a = some b → IsBool st b
  defined : ∀ i a b, st.table i a = some b → tab i a = none → ∀ τ, st.Sat τ → (b.True τ ↔ τ i = a)

structure Step (tab : Table) (st st' : Dump) (p q r : (ℕ → ℤ) → Prop) : Prop where
  ext : Extends st.next st'.next st.Sat st'.Sat p q r
  grows : ∃ new, st'.out = st.out ++ new ∧ ∀ f ∈ new, f.WellFormed
  inv : st.Inv tab → st'.Inv tab

abbrev free : (ℕ → ℤ) → Prop := fun _ => True

section
variable {tab : Table} {st st' st'' : Dump} {p q r p' q' r' : (ℕ → ℤ) → Prop} {b x y t : Opd} {f : Form}

theorem IsBool.step (h : IsBool st b) (hstep : Step tab st st' p q r) : IsBool st' b :=
  ⟨h.1.mono hstep.ext.le, fun τ hτ => h.2 τ (hstep.ext.sound τ hτ).1, h.const⟩

namespace Step

theorem refl (tab : Table) (st : Dump) : Step tab st st free free free :=
  ⟨Extends.refl st.next st.Sat, ⟨[], (append_nil _).symm, fun _ h => absurd h not_mem_nil⟩, id⟩

section
variable (h : Step tab st st' p q r)
include h

theorem trans (h' : Step tab st' st'' p' q' r') (hmid : ∀ τ, st'.Sat τ → r τ → p' τ) (hr : Local st'.next r) :
    Step tab st st'' p (fun τ => q τ ∧ q' τ) fun τ => r τ ∧ r' τ where
  ext := h.ext.trans h'.ext hmid hr
  grows := by
    obtain ⟨new, hout, hnew⟩ := h.grows
    obtain ⟨new', hout', hnew'⟩ := h'.grows
    refine ⟨new ++ new', by rw [hout', hout, append_assoc], fun f hf => ?_⟩
    exact (mem_append.1 hf).elim (hnew f) (hnew' f)
  inv := h'.inv ∘ h.inv

theorem imp (hp : ∀ τ, st.Sat τ → p' τ → p τ) (hq : ∀ τ, st'.Sat τ → q τ → q' τ)
    (hr : ∀ τ, st'.Sat τ → r τ → r' τ) : Step tab st st' p' q' r' :=
  ⟨h.ext.imp hp hq hr, h.grows, h.inv⟩

theorem keep (hf : Local st.next p') : Step tab st st' (fun τ => p τ ∧ p' τ) q fun τ => r τ ∧ p' τ :=
  ⟨h.ext.keep hf, h.grows, h.inv⟩

end

end Step

/-! ## Assertions -/

theorem sat_assert {τ : ℕ → ℤ} : (st.assert f).Sat τ ↔ st.Sat τ ∧ f.Holds τ := by
  unfold Dump.Sat Dump.assert
  rw [forall_mem_append, forall_mem_singleton]

theorem inv_of_table (hle : st.next ≤ st'.next) (htable : st'.table = st.table) (hsat : ∀ τ, st'.Sat τ → st.Sat τ)
    (hloc : Local st.next st.Sat → Local st'.next st'.Sat) (h : st.Inv tab) : st'.Inv tab where
  loc := hloc h.loc
  keeps := fun i a b hb => by rw [htable]; exact h.keeps i a b hb
  isBool := fun i a b hb => by
    have hb' := h.isBool i a b (htable ▸ hb)
    exact ⟨hb'.1.mono hle, fun τ hτ => hb'.2 τ (hsat τ hτ), hb'.const⟩
  defined := fun i a b hb hnone τ hτ => h.defined i a b (htable ▸ hb) hnone τ (hsat τ hτ)

theorem step_assert (hf : Local st.next fun τ => f.Holds τ) (hwf : f.WellFormed) :
    Step tab st (st.assert f) (fun τ => f.Holds τ) (fun τ => f.Holds τ) free where
  ext := by
    have hsat : (st.assert f).Sat = fun τ => st.Sat τ ∧ f.Holds τ := funext fun τ => propext sat_assert
    rw [hsat]
    exact Extends.assert hf
  grows := ⟨[f], rfl, fun g hg => mem_singleton.1 hg ▸ hwf⟩
  inv := inv_of_table (Nat.le_refl _) rfl (fun τ hτ => (sat_assert.1 hτ).1) fun hloc => by
    have hsat : (st.assert f).Sat = fun τ => st.Sat τ ∧ f.Holds τ := funext fun τ => propext sat_assert
    rw [hsat]
    exact hloc.and hf

theorem step_assert_iff (hp : ∀ τ, f.Holds τ ↔ p τ) (hloc : Local st.next p) (hwf : f.WellFormed) :
    Step tab st (st.assert f) p p free := by
  have hf : (fun τ => f.Holds τ) = p := funext fun τ => propext (hp τ)
  have := @step_assert tab st f (by rw [hf]; exact hloc) hwf
  rwa [hf] at this

/-! ## Terms -/

variable {τ : ℕ → ℤ} {ts : Terms} {const : ℤ} {rel : Rel}

theorem dumpTerm_val (t : ℤ × Opd) : (dumpTerm t).val τ = t.1 * t.2.val τ := by
  unfold dumpTerm
  split_ifs with h1 h2
  · rw [h1, one_mul]
    rfl
  · rw [h2, neg_one_mul]
    rfl
  · rfl

theorem dumpTerms_val (ts : Terms) : (dumpTerms ts).val τ = termsVal τ ts := by
  cases ts with
  | nil => exact zero_mul 0
  | cons t ts =>
    cases ts with
    | nil =>
      apply (dumpTerm_val t).trans
      unfold termsVal
      rw [map_singleton, sum_singleton]
    | cons t' ts =>
      change ((List.map dumpTerm (t :: t' :: ts)).map (Mono.val τ)).sum = _
      unfold termsVal
      rw [map_map]
      congr 1
      exact map_congr_left fun u _ => dumpTerm_val u

theorem dumpTerms_wellFormed (ts : Terms) : (dumpTerms ts).WellFormed := by
  cases ts with
  | nil => trivial
  | cons t ts =>
    cases ts with
    | nil => trivial
    | cons t' ts =>
      change 2 ≤ (List.map dumpTerm (t :: t' :: ts)).length
      rw [length_map, length_cons, length_cons]
      omega

theorem dumpRel_holds {t u : Term} : (dumpRel rel t u).Holds τ ↔ rel.Holds (t.val τ) (u.val τ) := by
  unfold dumpRel
  split_ifs with h
  · rw [h]
    rfl
  · rfl

theorem dumpRel_wellFormed {t u : Term} (ht : t.WellFormed) (hu : u.WellFormed) : (dumpRel rel t u).WellFormed := by
  unfold dumpRel
  split_ifs <;> exact ⟨ht, hu⟩

theorem rel_move {s : ℤ} : rel.Holds s (-const) ↔ rel.Holds (s + const) 0 := by
  cases rel <;> unfold Rel.Holds <;> omega

theorem local_arith (hts : TermsBelow st.next ts) : Local st.next fun τ => arithHolds τ rel const ts := by
  intro τ τ' hag
  change rel.Holds (termsVal τ' ts + const) 0 ↔ rel.Holds (termsVal τ ts + const) 0
  rw [hts.val_eq hag]

/-! ## Writing one assertion -/

theorem step_bin (hx : x.Below st.next) (hy : y.Below st.next) :
    Step tab st (dumpBinConstr rel x y st) (fun τ => rel.Holds (x.val τ) (y.val τ))
      (fun τ => rel.Holds (x.val τ) (y.val τ)) free := by
  refine step_assert_iff (fun τ => Iff.rfl) (fun τ τ' hag => ?_) ⟨trivial, trivial⟩
  rw [hx.val_eq hag, hy.val_eq hag]

theorem step_neq (hx : x.Below st.next) (hy : y.Below st.next) :
    Step tab st (dumpNeqConstr x y st) (fun τ => x.val τ ≠ y.val τ) (fun τ => x.val τ ≠ y.val τ) free := by
  refine step_assert_iff (fun τ => Iff.rfl) (fun τ τ' hag => ?_) ⟨trivial, trivial⟩
  rw [hx.val_eq hag, hy.val_eq hag]

theorem step_arith (hts : TermsBelow st.next ts) :
    Step tab st (dumpArithConstr rel const ts st) (fun τ => arithHolds τ rel const ts)
      (fun τ => arithHolds τ rel const ts) free := by
  refine step_assert_iff (fun τ => ?_) (local_arith hts) (dumpRel_wellFormed (dumpTerms_wellFormed ts) trivial)
  rw [dumpRel_holds, dumpTerms_val]
  exact rel_move

theorem link_holds {k : Link} {f g : Form} : (k.form f g).Holds τ ↔ k.Holds (f.Holds τ) (g.Holds τ) := by
  cases k <;> rfl

theorem con_congr (con : Prop → Prop → Prop) {P P' Q Q' : Prop} (hP : P ↔ P') (hQ : Q ↔ Q') : con P Q ↔ con P' Q' := by
  rw [propext hP, propext hQ]

theorem link_wellFormed {k : Link} {f g : Form} (hf : f.WellFormed) (hg : g.WellFormed) : (k.form f g).WellFormed := by
  cases k <;> exact ⟨hf, hg⟩

theorem step_reifImp {k : Link} (hb : b.Below st.next) (hts : TermsBelow st.next ts) :
    Step tab st (dumpReifImpConstr k b rel const ts st) (fun τ => (Constr.reifImp k b rel const ts).Holds tab τ)
      (fun τ => (Constr.reifImp k b rel const ts).Holds tab τ) free := by
  have hloc : Local st.next fun τ => (Constr.reifImp k b rel const ts).Holds tab τ := by
    intro τ τ' hag
    refine con_congr k.Holds ?_ (local_arith hts τ τ' hag)
    unfold Opd.True
    rw [hb.val_eq hag]
  have hform : ∀ (r' : Rel) (c' : ℤ), (∀ τ, r'.Holds (termsVal τ ts) (-c') ↔ arithHolds τ rel const ts) →
      Step tab st (st.assert (k.form (.rel .eq (.opd b) (.opd (.int 1)))
          (dumpRel r' (dumpTerms ts) (.opd (.int (-c'))))))
        (fun τ => (Constr.reifImp k b rel const ts).Holds tab τ)
        (fun τ => (Constr.reifImp k b rel const ts).Holds tab τ) free := by
    intro r' c' hr'
    refine step_assert_iff (fun τ => ?_) hloc (link_wellFormed ⟨trivial, trivial⟩
      (dumpRel_wellFormed (dumpTerms_wellFormed ts) trivial))
    refine link_holds.trans (con_congr k.Holds Iff.rfl ?_)
    rw [dumpRel_holds, dumpTerms_val]
    exact hr' τ
  unfold dumpReifImpConstr
  split
  · apply hform .ge (const - 1)
    intro τ
    unfold arithHolds Rel.Holds
    omega
  · exact hform rel const fun τ => rel_move

end

/-! # Boolean expressions -/

section
variable {tab : Table} {st st' st'' : Dump} {p q r p' q' r' : (ℕ → ℤ) → Prop} {b t nx ny : Opd} {rel : Rel}
  {vs : List Opd}

namespace Step

theorem congr (h : Step tab st st' p p free) (hpq : ∀ τ, st.Sat τ → (p τ ↔ q τ)) : Step tab st st' q q free :=
  h.imp (fun τ hτ => (hpq τ hτ).2) (fun τ hτ => (hpq τ (h.ext.sound τ hτ).1).1) fun _ _ h => h

theorem and (h : Step tab st st' p p free) (h' : Step tab st' st'' q q free) (hq : Local st.next q) :
    Step tab st st'' (fun τ => p τ ∧ q τ) (fun τ => p τ ∧ q τ) free :=
  ((h.keep hq).trans h' (fun _ _ hr => hr.2) ((local_true _).and (hq.mono h.ext.le))).imp (fun _ _ h => h)
    (fun _ _ h => h) fun _ _ _ => trivial

theorem define (h : Step tab st st' free q free) (h' : Step tab st' st'' p p free)
    (hpq : ∀ τ, st'.Sat τ → (p τ ↔ p' τ)) (hp : Local st.next p') : Step tab st st'' p' p' free :=
  ((h.keep hp).trans h' (fun τ hτ hr => (hpq τ hτ).2 hr.2) ((local_true _).and (hp.mono h.ext.le))).imp
    (fun _ _ h => ⟨trivial, h⟩) (fun τ hτ h => (hpq τ (h'.ext.sound τ hτ).1).1 h.2) fun _ _ _ => trivial

end Step

/-! ## New variables -/

theorem step_declare {v : (ℕ → ℤ) → ℤ} (hv : ∀ τ τ', Agree st.next τ τ' → v τ' = v τ) :
    Step tab st { st with next := st.next + 1 } free free fun τ => τ st.next = v τ where
  ext := Extends.fresh hv
  grows := ⟨[], (append_nil _).symm, fun _ h => absurd h not_mem_nil⟩
  inv := inv_of_table (Nat.le_succ _) rfl (fun _ h => h) fun hloc => hloc.mono (Nat.le_succ _)

theorem exists_bit {n : ℕ} (hp : Local n p) : ∃ v : (ℕ → ℤ) → ℤ, (∀ τ τ', Agree n τ τ' → v τ' = v τ) ∧
    (∀ τ, v τ = 0 ∨ v τ = 1) ∧ ∀ τ, v τ = 1 ↔ p τ := by
  classical
  refine ⟨fun τ => if p τ then 1 else 0, fun τ τ' hag => ?_, fun τ => ?_, fun τ => ?_⟩
  · dsimp only
    rw [propext (hp τ τ' hag)]
  · dsimp only
    split_ifs
    · exact .inr rfl
    · exact .inl rfl
  · dsimp only
    split_ifs with h
    · exact iff_of_true rfl h
    · exact iff_of_false (by decide) h

theorem local_bit {n : ℕ} (hp : Local n p) : Local (n + 1) fun τ => τ n = 1 ↔ p τ := by
  intro τ τ' hag
  change (τ' n = 1 ↔ p τ') ↔ (τ n = 1 ↔ p τ)
  rw [hag n (Nat.lt_succ_self n), hp τ τ' (hag.mono (Nat.le_succ n))]

theorem step_newBool (hp : Local st.next p) :
    Step tab st (newDvar 0 1 st).2 free free fun τ => τ st.next = 1 ↔ p τ := by
  obtain ⟨v, hv, hv01, hvp⟩ := exists_bit hp
  have hn : (Opd.var st.next).Below (st.next + 1) := Nat.lt_succ_self _
  have hr : Local (st.next + 1) fun τ => τ st.next = v τ := by
    intro τ τ' hag
    change τ' st.next = v τ' ↔ τ st.next = v τ
    rw [hag st.next (Nat.lt_succ_self _), hv τ τ' (hag.mono (Nat.le_succ _))]
  have hlow := @step_bin tab { st with next := st.next + 1 } (.var st.next) (.int 0) .ge hn trivial
  have hhigh := @step_bin tab (dumpBinConstr .ge (.var st.next) (.int 0) { st with next := st.next + 1 })
    (.int 1) (.var st.next) .ge trivial hn
  refine (((step_declare hv).trans hlow (fun τ _ h => ?_) hr).trans hhigh (fun τ _ h => ?_)
    (hr.and (local_true _))).imp (fun _ _ h => h) (fun _ _ _ => trivial) fun τ _ h => ?_
  · change τ st.next ≥ 0
    have := hv01 τ
    omega
  · change 1 ≥ τ st.next
    have := hv01 τ
    omega
  · rw [← hvp τ, ← h.1.1]

theorem isBool_newDvar : IsBool (newDvar 0 1 st).2 (.var st.next) := by
  refine ⟨Nat.lt_succ_self _, fun τ hτ => ?_, fun _ h => Opd.noConfusion h⟩
  obtain ⟨h, hhigh⟩ := sat_assert.1 hτ
  obtain ⟨_, hlow⟩ := sat_assert.1 h
  have h0 : τ st.next ≥ 0 := hlow
  have h1 : 1 ≥ τ st.next := hhigh
  change τ st.next = 0 ∨ τ st.next = 1
  omega

/-! ## Least and greatest elements -/

def OpdsBelow (n : ℕ) (vs : List Opd) : Prop := ∀ v ∈ vs, v.Below n

theorem local_foreach {n : ℕ} (hvs : OpdsBelow n vs) (ht : t.Below n) :
    Local n fun τ => ∀ v ∈ vs, rel.Holds (v.val τ) (t.val τ) := by
  intro τ τ' hag
  apply forall₂_congr
  intro v hv
  rw [(hvs v hv).val_eq hag, ht.val_eq hag]

theorem step_foreach (hvs : OpdsBelow st.next vs) (ht : t.Below st.next) :
    Step tab st (dumpForeachConstr rel vs t st) (fun τ => ∀ v ∈ vs, rel.Holds (v.val τ) (t.val τ))
      (fun τ => ∀ v ∈ vs, rel.Holds (v.val τ) (t.val τ)) free := by
  induction vs generalizing st with
  | nil => exact (Step.refl tab st).congr fun τ _ => iff_of_true trivial fun v hv => absurd hv not_mem_nil
  | cons v vs ih =>
    have hvs' : OpdsBelow st.next vs := fun u hu => hvs u (mem_cons_of_mem v hu)
    have hv := @step_bin tab st v t rel (hvs v mem_cons_self) ht
    apply (hv.and (ih hvs' ht) (local_foreach hvs' ht)).congr
    intro τ _
    rw [forall_mem_cons]

theorem local_member {n : ℕ} (hvs : OpdsBelow n vs) (ht : t.Below n) :
    Local n fun τ => ∃ v ∈ vs, t.val τ = v.val τ := by
  intro τ τ' hag
  refine exists_congr fun v => and_congr_right fun hv => ?_
  rw [(hvs v hv).val_eq hag, ht.val_eq hag]

section
variable (hvs : OpdsBelow st.next vs) (ht : t.Below st.next)
include hvs ht

theorem step_member (hlen : 2 ≤ vs.length) :
    Step tab st (dumpMemberConstr vs t st) (fun τ => ∃ v ∈ vs, t.val τ = v.val τ)
      (fun τ => ∃ v ∈ vs, t.val τ = v.val τ) free := by
  refine step_assert_iff (fun τ => ?_) (local_member hvs ht) ?_
  · unfold Form.Holds
    simp only [mem_map, exists_exists_and_eq_and]
  · unfold Form.WellFormed
    rw [length_map]
    exact hlen

theorem step_extreme (hlen : 2 ≤ vs.length) : Step tab st (dumpMemberConstr vs t (dumpForeachConstr rel vs t st))
      (fun τ => (∃ v ∈ vs, t.val τ = v.val τ) ∧ ∀ v ∈ vs, rel.Holds (v.val τ) (t.val τ))
      (fun τ => (∃ v ∈ vs, t.val τ = v.val τ) ∧ ∀ v ∈ vs, rel.Holds (v.val τ) (t.val τ)) free := by
  have hfor := @step_foreach tab st t rel vs hvs ht
  have hmem := @step_member tab (dumpForeachConstr rel vs t st) t vs (fun v hv => (hvs v hv).mono hfor.ext.le)
    (ht.mono hfor.ext.le) hlen
  exact (hfor.and hmem (local_member hvs ht)).congr fun τ _ => and_comm

theorem step_maxlist (hne : vs ≠ []) :
    Step tab st (dumpMaxlistConstr vs t st) (fun τ => maxHolds τ vs t) (fun τ => maxHolds τ vs t) free := by
  match vs, hne with
  | [v], _ =>
    apply (step_bin (hvs v mem_cons_self) ht).congr
    intro τ _
    unfold maxHolds Rel.Holds
    simp only [mem_singleton, exists_eq_left, forall_eq]
    omega
  | v :: v' :: vs, _ => exact step_extreme hvs ht (by simp)

theorem step_minlist (hne : vs ≠ []) :
    Step tab st (dumpMinlistConstr vs t st) (fun τ => minHolds τ vs t) (fun τ => minHolds τ vs t) free := by
  match vs, hne with
  | [v], _ =>
    apply (step_bin (hvs v mem_cons_self) ht).congr
    intro τ _
    unfold minHolds Rel.Holds
    simp only [mem_singleton, exists_eq_left, forall_eq]
    omega
  | v :: v' :: vs, _ => exact step_extreme hvs ht (by simp)

end

/-! ## Connectives -/

def Dumps (tab : Table) (e : BoolExp) : Prop :=
  ∀ st : Dump, (∀ x ∈ e.opds, IsBool st x) → ∃ b st', dumpBoolExp e st = some (b, st') ∧ IsBool st' b ∧
    Step tab st st' free (fun τ => b.True τ ↔ e.Holds τ) free

theorem local_boolExp {n : ℕ} {e : BoolExp} (h : ∀ x ∈ e.opds, x.Below n) : Local n fun τ => e.Holds τ := by
  intro τ τ' hag
  induction e with
  | opd x =>
    change x.val τ' = 1 ↔ x.val τ = 1
    rw [(h x mem_cons_self).val_eq hag]
  | iff x y ihx ihy =>
    exact iff_congr (ihx fun z hz => h z (mem_append_left _ hz)) (ihy fun z hz => h z (mem_append_right _ hz))
  | imp x y ihx ihy =>
    exact imp_congr (ihx fun z hz => h z (mem_append_left _ hz)) (ihy fun z hz => h z (mem_append_right _ hz))
  | and x y ihx ihy =>
    exact and_congr (ihx fun z hz => h z (mem_append_left _ hz)) (ihy fun z hz => h z (mem_append_right _ hz))
  | or x y ihx ihy =>
    exact or_congr (ihx fun z hz => h z (mem_append_left _ hz)) (ihy fun z hz => h z (mem_append_right _ hz))
  | xor x y ihx ihy =>
    exact not_congr (iff_congr (ihx fun z hz => h z (mem_append_left _ hz))
      (ihy fun z hz => h z (mem_append_right _ hz)))
  | not x ih => exact not_congr (ih h)

/-- What a connective writes about its variable `b` and its operands. -/
def Defines (tab : Table) (con : Prop → Prop → Prop) (defn : Opd → Opd → Opd → Dump → Dump) : Prop :=
  ∀ (st : Dump) (b nx ny : Opd), IsBool st b → IsBool st nx → IsBool st ny →
    Step tab st (defn b nx ny st) (fun τ => b.True τ ↔ con (nx.True τ) (ny.True τ))
      (fun τ => b.True τ ↔ con (nx.True τ) (ny.True τ)) free

/-- The variable of the connective is given the truth value of the whole expression before the operands have
theirs. -/
theorem dumps_connective {x y : BoolExp} {con : Prop → Prop → Prop} {defn : Opd → Opd → Opd → Dump → Dump}
    (hx : Dumps tab x) (hy : Dumps tab y) (hdefn : Defines tab con defn) (hxs : ∀ z ∈ x.opds, IsBool st z)
    (hys : ∀ z ∈ y.opds, IsBool st z) :
    ∃ b st', (do
        let (b, st) := newDvar 0 1 st
        let (nx, st) ← dumpBoolExp x st
        let (ny, st) ← dumpBoolExp y st
        return (b, defn b nx ny st)) = some (b, st') ∧ IsBool st' b ∧
      Step tab st st' free (fun τ => b.True τ ↔ con (x.Holds τ) (y.Holds τ)) free := by
  have hlocal : Local st.next fun τ => con (x.Holds τ) (y.Holds τ) :=
    fun τ τ' hag => con_congr con (@local_boolExp st.next x (fun z hz => (hxs z hz).1) τ τ' hag)
      (@local_boolExp st.next y (fun z hz => (hys z hz).1) τ τ' hag)
  have h1 := @step_newBool tab st _ hlocal
  obtain ⟨nx, st2, hdx, hnx, h2⟩ := hx _ fun z hz => (hxs z hz).step h1
  obtain ⟨ny, st3, hdy, hny, h3⟩ := hy st2 fun z hz => ((hys z hz).step h1).step h2
  have hb2 := (@isBool_newDvar st).step h2
  have h4 := hdefn st3 (.var st.next) nx ny (hb2.step h3) (hnx.step h3) hny
  have h12 := h1.trans h2 (fun _ _ _ => trivial) (local_bit hlocal)
  have hr12 := ((local_bit hlocal).mono h2.ext.le).and (local_true st2.next)
  have h123 := h12.trans h3 (fun _ _ _ => trivial) hr12
  have hr123 := (hr12.mono h3.ext.le).and (local_true st3.next)
  refine ⟨.var st.next, _, ?_, (hb2.step h3).step h4, (h123.trans h4 (fun τ hτ hr => ?_) hr123).imp
    (fun _ _ h => h) (fun τ hτ hq => ?_) fun _ _ _ => trivial⟩
  · change (dumpBoolExp x (newDvar 0 1 st).2).bind _ = _
    rw [hdx]
    change (dumpBoolExp y st2).bind _ = _
    rw [hdy]
    rfl
  · obtain ⟨⟨_, hqx⟩, hqy⟩ := (h123.ext.sound τ hτ).2
    rw [propext hqx, propext hqy]
    exact hr.1.1
  · obtain ⟨⟨⟨_, hqx⟩, hqy⟩, hq4⟩ := hq
    rw [← propext hqx, ← propext hqy]
    exact hq4

/-! ## Connectives, one by one -/

theorem termsBelow_pair {n : ℕ} {c c' : ℤ} (hx : nx.Below n) (hy : ny.Below n) : TermsBelow n [(c, nx), (c', ny)] := by
  intro t ht
  rcases mem_cons.1 ht with rfl | ht
  · exact hx
  · rw [mem_singleton.1 ht]
    exact hy

theorem termsVal_pair {τ : ℕ → ℤ} {c c' : ℤ} : termsVal τ [(c, nx), (c', ny)] = c * nx.val τ + c' * ny.val τ := by
  unfold termsVal
  rw [map_cons, map_singleton, sum_cons, sum_singleton]

theorem termsVal_single {τ : ℕ → ℤ} {c : ℤ} : termsVal τ [(c, nx)] = c * nx.val τ := by
  unfold termsVal
  rw [map_singleton, sum_singleton]

theorem defines_iff : Defines tab (· ↔ ·) fun b nx ny => dumpReifImpConstr .reif b .eq 0 [(1, nx), (-1, ny)] := by
  intro st b nx ny hb hx hy
  refine (step_reifImp hb.1 (termsBelow_pair hx.1 hy.1)).congr fun τ hτ => iff_congr Iff.rfl ?_
  have h1 := hx.2 τ hτ
  have h2 := hy.2 τ hτ
  unfold arithHolds Rel.Holds Opd.True
  rw [termsVal_pair]
  omega

theorem defines_imp :
    Defines tab (fun p q => p → q) fun b nx ny => dumpReifImpConstr .reif b .ge 0 [(1, ny), (-1, nx)] := by
  intro st b nx ny hb hx hy
  refine (step_reifImp hb.1 (termsBelow_pair hy.1 hx.1)).congr fun τ hτ => iff_congr Iff.rfl ?_
  have h1 := hx.2 τ hτ
  have h2 := hy.2 τ hτ
  unfold arithHolds Rel.Holds Opd.True
  rw [termsVal_pair]
  omega

theorem defines_xor :
    Defines tab (fun p q => ¬ (p ↔ q)) fun b nx ny => dumpReifImpConstr .reif b .neq 0 [(1, nx), (-1, ny)] := by
  intro st b nx ny hb hx hy
  refine (step_reifImp hb.1 (termsBelow_pair hx.1 hy.1)).congr fun τ hτ => iff_congr Iff.rfl ?_
  have h1 := hx.2 τ hτ
  have h2 := hy.2 τ hτ
  unfold arithHolds Rel.Holds Opd.True
  rw [termsVal_pair]
  omega

theorem opdsBelow_pair {n : ℕ} (hx : nx.Below n) (hy : ny.Below n) : OpdsBelow n [nx, ny] := by
  intro v hv
  rcases mem_cons.1 hv with rfl | hv
  · exact hx
  · rw [mem_singleton.1 hv]
    exact hy

theorem defines_and : Defines tab (· ∧ ·) fun b nx ny => dumpMinlistConstr [nx, ny] b := by
  intro st b nx ny hb hx hy
  apply (step_minlist (opdsBelow_pair hx.1 hy.1) hb.1 (cons_ne_nil _ _)).congr
  intro τ hτ
  have h1 := hx.2 τ hτ
  have h2 := hy.2 τ hτ
  have h3 := hb.2 τ hτ
  unfold minHolds Opd.True
  simp only [mem_cons, not_mem_nil, or_false, exists_eq_or_imp, exists_eq_left, forall_eq_or_imp, forall_eq]
  omega

theorem defines_or : Defines tab (· ∨ ·) fun b nx ny => dumpMaxlistConstr [nx, ny] b := by
  intro st b nx ny hb hx hy
  apply (step_maxlist (opdsBelow_pair hx.1 hy.1) hb.1 (cons_ne_nil _ _)).congr
  intro τ hτ
  have h1 := hx.2 τ hτ
  have h2 := hy.2 τ hτ
  have h3 := hb.2 τ hτ
  unfold maxHolds Opd.True
  simp only [mem_cons, not_mem_nil, or_false, exists_eq_or_imp, exists_eq_left, forall_eq_or_imp, forall_eq]
  omega

theorem dumps_not {x : BoolExp} (hx : Dumps tab x) : Dumps tab (.not x) := by
  intro st hxs
  have hlocal : Local st.next fun τ => ¬ x.Holds τ :=
    fun τ τ' hag => not_congr (@local_boolExp st.next x (fun z hz => (hxs z hz).1) τ τ' hag)
  have h1 := @step_newBool tab st _ hlocal
  obtain ⟨nx, st2, hdx, hnx, h2⟩ := hx _ fun z hz => (hxs z hz).step h1
  have hb2 := (@isBool_newDvar st).step h2
  have hts : TermsBelow st2.next [(1, nx)] := fun t ht => mem_singleton.1 ht ▸ hnx.1
  have hdef : Step tab st2 (dumpReifImpConstr .reif (.var st.next) .eq 0 [(1, nx)] st2)
      (fun τ => (Opd.var st.next).True τ ↔ ¬ nx.True τ) (fun τ => (Opd.var st.next).True τ ↔ ¬ nx.True τ) free := by
    refine (step_reifImp hb2.1 hts).congr fun τ hτ => iff_congr Iff.rfl ?_
    have := hnx.2 τ hτ
    unfold arithHolds Rel.Holds Opd.True
    rw [termsVal_single]
    omega
  have h12 := h1.trans h2 (fun _ _ _ => trivial) (local_bit hlocal)
  have hr12 := ((local_bit hlocal).mono h2.ext.le).and (local_true st2.next)
  refine ⟨.var st.next, _, ?_, hb2.step hdef, (h12.trans hdef (fun τ hτ hr => ?_) hr12).imp (fun _ _ h => h)
    (fun τ hτ hq => ?_) fun _ _ _ => trivial⟩
  · change (dumpBoolExp x (newDvar 0 1 st).2).bind _ = _
    rw [hdx]
    rfl
  · rw [propext (h12.ext.sound τ hτ).2.2]
    exact hr.1
  · obtain ⟨⟨_, hqx⟩, hq⟩ := hq
    change _ ↔ ¬ x.Holds τ
    rw [← propext hqx]
    exact hq

theorem dumps_boolExp (tab : Table) (e : BoolExp) : Dumps tab e := by
  induction e with
  | opd x =>
    intro st h
    have hx := h x mem_cons_self
    refine ⟨x, st, ?_, hx, (Step.refl tab st).imp (fun _ _ h => h) (fun _ _ _ => Iff.rfl) fun _ _ h => h⟩
    cases x with
    | int z =>
      have hz := hx.const z rfl
      exact if_pos ⟨by omega, by omega⟩
    | var i => rfl
  | iff x y ihx ihy =>
    intro st h
    exact dumps_connective ihx ihy defines_iff (fun z hz => h z (mem_append_left _ hz))
      fun z hz => h z (mem_append_right _ hz)
  | imp x y ihx ihy =>
    intro st h
    exact dumps_connective ihx ihy defines_imp (fun z hz => h z (mem_append_left _ hz))
      fun z hz => h z (mem_append_right _ hz)
  | and x y ihx ihy =>
    intro st h
    exact dumps_connective ihx ihy defines_and (fun z hz => h z (mem_append_left _ hz))
      fun z hz => h z (mem_append_right _ hz)
  | or x y ihx ihy =>
    intro st h
    exact dumps_connective ihx ihy defines_or (fun z hz => h z (mem_append_left _ hz))
      fun z hz => h z (mem_append_right _ hz)
  | xor x y ihx ihy =>
    intro st h
    exact dumps_connective ihx ihy defines_xor (fun z hz => h z (mem_append_left _ hz))
      fun z hz => h z (mem_append_right _ hz)
  | not x ih => exact dumps_not ih

end

end Picat.Smt
