import Picat.Smt.TableSteps

/-!
# Constraints, one by one

* `step_constr` : what is dumped for a constraint says what the constraint says.
-/

namespace Picat.Smt
open FreshVariables List

def Constr.Listed : Constr → Prop
  | .reifIn _ _ l | .reifNotin _ _ l => l ≠ []
  | .maxL l _ | .minL l _ => l ≠ []
  | _ => True

/-- A constant operand does not have the truth value that it has to have. -/
def Constr.Stops : Constr → Prop
  | .and x y => x = .opd (.int 0) ∨ y = .opd (.int 0)
  | .not x => x = .opd (.int 1)
  | _ => False

section
variable {tab : Table} {st st' : Dump} {b x y t : Opd} {rel : Rel} {const : ℤ} {ts : Terms} {vs : List Opd} {c : Constr}
  {n : ℕ} {τ : ℕ → ℤ} {e f : BoolExp}

theorem Constr.Stops.not_holds (h : c.Stops) : ¬ c.Holds tab τ := by
  cases c with
  | and e f =>
    intro hp
    obtain ⟨he, hf⟩ := hp
    rcases h with rfl | rfl
    · exact absurd (show (0 : ℤ) = 1 from he) (by decide)
    · exact absurd (show (0 : ℤ) = 1 from hf) (by decide)
  | not e =>
    intro he
    rw [show e = .opd (.int 1) from h] at he
    exact he rfl
  | _ => exact h.elim

/-! ## Negation -/

theorem termsVal_append (ts ts' : Terms) : termsVal τ (ts ++ ts') = termsVal τ ts + termsVal τ ts' := by
  unfold termsVal
  rw [List.map_append, sum_append]

theorem termsVal_filter (p : ℤ × Opd → Prop) [DecidablePred p] (ts : Terms) :
    termsVal τ (ts.filter p) + termsVal τ (ts.filter fun t => ¬ p t) = termsVal τ ts := by
  induction ts with
  | nil => rfl
  | cons t ts ih =>
    by_cases hp : p t
    · rw [filter_cons_of_pos (by simpa using hp), filter_cons_of_neg (by simpa using hp)]
      rw [termsVal_cons, termsVal_cons, ← ih, add_assoc]
    · rw [filter_cons_of_neg (by simpa using hp), filter_cons_of_pos (by simpa using hp)]
      rw [termsVal_cons, termsVal_cons, ← ih]
      omega

theorem negateTerms_val (ts : Terms) : termsVal τ (negateTerms ts) = -termsVal τ ts := by
  have hneg : termsVal τ (ts.map fun t => (-t.1, t.2)) = -termsVal τ ts := by
    induction ts with
    | nil => rfl
    | cons t ts ih =>
      rw [map_cons, termsVal_cons, termsVal_cons, ih, neg_mul, neg_add]
  unfold negateTerms
  rw [termsVal_append, termsVal_filter fun t : ℤ × Opd => 0 < t.1]
  exact hneg

theorem negateTerms_below (hts : TermsBelow n ts) : TermsBelow n (negateTerms ts) := by
  intro t ht
  have hmem : t ∈ ts.map fun t => (-t.1, t.2) :=
    (mem_append.1 ht).elim mem_of_mem_filter mem_of_mem_filter
  obtain ⟨u, hu, rfl⟩ := mem_map.1 hmem
  exact hts u hu

theorem exists_negateArith (hrel : rel.Stored) (const : ℤ) (ts : Terms) :
    ∃ r' const' ts', negateArithConstr rel const ts = some (r', const', ts') ∧
      (∀ n, TermsBelow n ts → TermsBelow n ts') ∧
      ∀ τ, arithHolds τ r' const' ts' ↔ ¬ arithHolds τ rel const ts := by
  have hval := fun τ => @negateTerms_val τ ts
  have hbelow := fun n => @negateTerms_below ts n
  unfold arithHolds
  rcases hrel with rfl | rfl | rfl | rfl
  · exact ⟨.neq, const, ts, rfl, fun _ h => h, fun τ => Iff.rfl⟩
  · exact ⟨.eq, const, ts, rfl, fun _ h => h, fun τ => not_ne_iff.symm⟩
  · refine ⟨.gt, -const, negateTerms ts, rfl, hbelow, fun τ => ?_⟩
    rw [hval τ]
    unfold Rel.Holds
    omega
  · refine ⟨.ge, -const, negateTerms ts, rfl, hbelow, fun τ => ?_⟩
    rw [hval τ]
    unfold Rel.Holds
    omega

/-! ## Boolean combinations -/

theorem dumpBoolExp_int {z : ℤ} (h : dumpBoolExp e st = some (.int z, st')) : e = .opd (.int z) := by
  have hbind : ∀ {o : Option (Opd × Dump)} {w : Opd × Dump → Dump} {m : ℕ},
      (o.bind fun p => some (Opd.var m, w p)) ≠ some (.int z, st') := by
    intro o w m ho
    obtain ⟨p, _, hp⟩ := Option.bind_eq_some_iff.1 ho
    exact Opd.noConfusion (Prod.ext_iff.1 (Option.some.inj hp)).1
  cases e with
  | opd x =>
    cases x with
    | int w =>
      change (if _ then _ else _) = _ at h
      split_ifs at h
      exact congrArg BoolExp.opd (Prod.ext_iff.1 (Option.some.inj h)).1
    | var i => exact Opd.noConfusion (Prod.ext_iff.1 (Option.some.inj h)).1
  | not e => exact absurd h hbind
  | iff e f | imp e f | and e f | or e f | xor e f =>
    obtain ⟨p, _, hp⟩ := Option.bind_eq_some_iff.1 h
    exact absurd hp hbind

/-- What is written about the operands of a Boolean combination. -/
def Asserts (tab : Table) (con : Prop → Prop → Prop) (write : Opd → Opd → Dump → Option Dump) (e f : BoolExp) : Prop :=
  ∀ (st : Dump) (nx ny : Opd), IsBool st nx → IsBool st ny → (∀ z, nx = .int z → e = .opd (.int z)) →
    (∀ z, ny = .int z → f = .opd (.int z)) → ∃ st', write nx ny st = some st' ∧
      Step tab st st' (fun τ => con (nx.True τ) (ny.True τ)) (fun τ => con (nx.True τ) (ny.True τ)) free

theorem step_combination {con : Prop → Prop → Prop} {write : Opd → Opd → Dump → Option Dump}
    (hwrite : Asserts tab con write e f) (he : ∀ z ∈ e.opds, IsBool st z) (hf : ∀ z ∈ f.opds, IsBool st z) :
    ∃ st', (do
        let (nx, st) ← dumpBoolExp e st
        let (ny, st) ← dumpBoolExp f st
        write nx ny st) = some st' ∧
      Step tab st st' (fun τ => con (e.Holds τ) (f.Holds τ)) (fun τ => con (e.Holds τ) (f.Holds τ)) free := by
  obtain ⟨nx, st1, hd1, hnx, h1⟩ := dumps_boolExp tab e st he
  obtain ⟨ny, st2, hd2, hny, h2⟩ := dumps_boolExp tab f st1 fun z hz => (hf z hz).step h1
  obtain ⟨st3, hd3, h3⟩ := hwrite st2 nx ny (hnx.step h2) hny
    (fun z hz => by rw [hz] at hd1; exact dumpBoolExp_int hd1) fun z hz => by rw [hz] at hd2; exact dumpBoolExp_int hd2
  have hlocal : Local st.next fun τ => con (e.Holds τ) (f.Holds τ) :=
    fun τ τ' hag => con_congr con (@local_boolExp st.next e (fun z hz => (he z hz).1) τ τ' hag)
      (@local_boolExp st.next f (fun z hz => (hf z hz).1) τ τ' hag)
  have h12 := (h1.trans h2 (fun _ _ _ => trivial) (local_true _)).imp (fun _ _ h => h) (fun _ _ h => h)
    fun _ _ _ => trivial
  refine ⟨st3, ?_, h12.define h3 (fun τ hτ => ?_) hlocal⟩
  · rw [hd1]
    change (dumpBoolExp f st1).bind _ = _
    rw [hd2]
    exact hd3
  · obtain ⟨hqx, hqy⟩ := (h12.ext.sound τ hτ).2
    exact con_congr con hqx hqy

theorem asserts_iff : Asserts tab (· ↔ ·) (fun nx ny st => some (dumpBinConstr .eq nx ny st)) e f := by
  intro st nx ny hx hy _ _
  refine ⟨_, rfl, (step_bin hx.1 hy.1).congr fun τ hτ => ?_⟩
  have h1 := hx.2 τ hτ
  have h2 := hy.2 τ hτ
  unfold Rel.Holds Opd.True
  omega

theorem asserts_imp : Asserts tab (fun p q => p → q) (fun nx ny st => some (dumpBinConstr .ge ny nx st)) e f := by
  intro st nx ny hx hy _ _
  refine ⟨_, rfl, (step_bin hy.1 hx.1).congr fun τ hτ => ?_⟩
  have h1 := hx.2 τ hτ
  have h2 := hy.2 τ hτ
  unfold Rel.Holds Opd.True
  omega

theorem asserts_or : Asserts tab (· ∨ ·)
    (fun nx ny st => some (dumpArithConstr .ge (-1) [(1, nx), (1, ny)] st)) e f := by
  intro st nx ny hx hy _ _
  refine ⟨_, rfl, (step_arith (termsBelow_pair hx.1 hy.1)).congr fun τ hτ => ?_⟩
  have h1 := hx.2 τ hτ
  have h2 := hy.2 τ hτ
  unfold arithHolds Rel.Holds Opd.True
  rw [termsVal_pair]
  omega

theorem asserts_xor : Asserts tab (fun p q => ¬ (p ↔ q)) (fun nx ny st => some (dumpNeqConstr ny nx st)) e f := by
  intro st nx ny hx hy _ _
  refine ⟨_, rfl, (step_neq hy.1 hx.1).congr fun τ hτ => ?_⟩
  have h1 := hx.2 τ hτ
  have h2 := hy.2 τ hτ
  unfold Opd.True
  omega

theorem step_is {z : ℤ} (hx : IsBool st x) (hz : ∀ w, x = .int w → w = z) :
    ∃ st', dumpIs z x st = some st' ∧ Step tab st st' (fun τ => x.val τ = z) (fun τ => x.val τ = z) free := by
  cases x with
  | var i => exact ⟨_, rfl, @step_bin tab st (.var i) (.int z) .eq hx.1 trivial⟩
  | int w =>
    refine ⟨st, if_pos (hz w rfl), (Step.refl tab st).congr fun τ _ => ?_⟩
    exact iff_of_true trivial (hz w rfl)

theorem asserts_and (he : e ≠ .opd (.int 0)) (hf : f ≠ .opd (.int 0)) :
    Asserts tab (· ∧ ·) (fun nx ny st => (dumpIs 1 nx st).bind (dumpIs 1 ny)) e f := by
  intro st nx ny hx hy hcx hcy
  have hone : ∀ {z : ℤ} {g : BoolExp}, g ≠ .opd (.int 0) → g = .opd (.int z) → z = 0 ∨ z = 1 → z = 1 := by
    intro z g hg hz h01
    refine h01.resolve_left fun h0 => hg ?_
    rw [hz, h0]
  obtain ⟨st1, hd1, h1⟩ := @step_is tab st nx 1 hx fun w hw => hone he (hcx w hw) (hx.const w hw)
  obtain ⟨st2, hd2, h2⟩ := @step_is tab st1 ny 1 (hy.step h1) fun w hw => hone hf (hcy w hw) (hy.const w hw)
  have hlocal : Local st.next fun τ => ny.val τ = 1 := by
    intro τ τ' hag
    dsimp only
    rw [hy.1.val_eq hag]
  refine ⟨st2, ?_, h1.and h2 hlocal⟩
  dsimp only
  rw [hd1]
  exact hd2

theorem step_not (he : ∀ z ∈ e.opds, IsBool st z) (hne : e ≠ .opd (.int 1)) :
    ∃ st', dumpConstr (.not e) st = some st' ∧ Step tab st st' (fun τ => ¬ e.Holds τ) (fun τ => ¬ e.Holds τ) free := by
  obtain ⟨nx, st1, hd1, hnx, h1⟩ := dumps_boolExp tab e st he
  obtain ⟨st2, hd2, h2⟩ := @step_is tab st1 nx 0 hnx fun w hw => by
    rw [hw] at hd1
    refine (hnx.const w hw).resolve_right fun h => hne ?_
    rw [dumpBoolExp_int hd1, h]
  have hlocal : Local st.next fun τ => ¬ e.Holds τ :=
    fun τ τ' hag => not_congr (@local_boolExp st.next e (fun z hz => (he z hz).1) τ τ' hag)
  refine ⟨st2, ?_, h1.define h2 (fun τ hτ => ?_) hlocal⟩
  · change (dumpBoolExp e st).bind _ = _
    rw [hd1]
    exact hd2
  · have hbit := hnx.2 τ hτ
    rw [← propext (h1.ext.sound τ hτ).2]
    unfold Opd.True
    omega

/-! ## All constraints -/

theorem opdsBelow_map_snd : OpdsBelow n (ts.map Prod.snd) ↔ TermsBelow n ts := by
  unfold OpdsBelow TermsBelow
  rw [forall_mem_map]

theorem step_ifC (hb : b.Below st.next) (hx : x.Below st.next) (hy : y.Below st.next) (ht : t.Below st.next) :
    Step tab st (st.assert (.rel .eq (.opd t) (.ite b x y))) (fun τ => (Constr.ifC b x y t).Holds tab τ)
      (fun τ => (Constr.ifC b x y t).Holds tab τ) free := by
  refine step_assert_iff (fun τ => Iff.rfl) (fun τ τ' hag => ?_) ⟨trivial, trivial⟩
  simp only [Constr.Holds]
  rw [hb.val_eq hag, hx.val_eq hag, hy.val_eq hag, ht.val_eq hag]

section
variable (hx : x.Below st.next) (hy : y.Below st.next) (ht : t.Below st.next)
include hx hy ht

theorem step_max2 : Step tab st (dumpMaxlistConstr [x, y] t st) (fun τ => (Constr.max2 x y t).Holds tab τ)
      (fun τ => (Constr.max2 x y t).Holds tab τ) free := by
  apply (step_maxlist (opdsBelow_pair hx hy) ht (cons_ne_nil _ _)).congr
  intro τ _
  unfold maxHolds
  simp only [Constr.Holds, mem_cons, not_mem_nil, or_false, exists_eq_or_imp, exists_eq_left,
    forall_eq_or_imp, forall_eq]
  omega

theorem step_min2 : Step tab st (dumpMinlistConstr [x, y] t st) (fun τ => (Constr.min2 x y t).Holds tab τ)
      (fun τ => (Constr.min2 x y t).Holds tab τ) free := by
  apply (step_minlist (opdsBelow_pair hx hy) ht (cons_ne_nil _ _)).congr
  intro τ _
  unfold minHolds
  simp only [Constr.Holds, mem_cons, not_mem_nil, or_false, exists_eq_or_imp, exists_eq_left,
    forall_eq_or_imp, forall_eq]
  omega

end

theorem step_link {k : Link} (hrel : rel.Stored) (hb : IsBool st b) (hts : TermsBelow st.next ts) :
    ∃ st', dumpConstr (.reifImp k b rel const ts) st = some st' ∧
      Step tab st st' (fun τ => (Constr.reifImp k b rel const ts).Holds tab τ)
        (fun τ => (Constr.reifImp k b rel const ts).Holds tab τ) free := by
  cases b with
  | var i => exact ⟨_, by cases k <;> rfl, step_reifImp hb.1 hts⟩
  | int z =>
    cases k with
    | reif =>
      rcases hb.const z rfl with rfl | rfl
      · obtain ⟨r', const', ts', hneg, hbelow, hholds⟩ := exists_negateArith hrel const ts
        refine ⟨dumpArithConstr r' const' ts' st, ?_, (step_arith (hbelow _ hts)).congr fun τ _ => ?_⟩
        · change (negateArithConstr rel const ts).bind _ = _
          rw [hneg]
          rfl
        · rw [hholds]
          exact (iff_false_left (by decide : ¬ (0 : ℤ) = 1)).symm
      · exact ⟨_, rfl, (step_arith hts).congr fun τ _ => (iff_true_left (Eq.refl (1 : ℤ))).symm⟩
    | imp =>
      rcases hb.const z rfl with rfl | rfl
      · refine ⟨st, rfl, (Step.refl tab st).congr fun τ _ => iff_of_true trivial fun h => ?_⟩
        exact absurd (show (0 : ℤ) = 1 from h) (by decide)
      · exact ⟨_, rfl, (step_arith hts).congr fun τ _ => ⟨fun h _ => h, fun h => h rfl⟩⟩

theorem step_constr (hinv : st.Inv tab) (hwf : c.WellFormed) (hopds : OpdsBelow st.next c.opds)
    (hbools : ∀ b ∈ c.bools, IsBool st b) (hlisted : c.Listed) (hstops : ¬ c.Stops) :
    ∃ st', dumpConstr c st = some st' ∧ Step tab st st' (fun τ => c.Holds tab τ) (fun τ => c.Holds tab τ) free := by
  cases c with
  | reifIn b x l => exact ⟨_, rfl, step_reifIn (hbools b mem_cons_self) (hopds x mem_cons_self) hlisted⟩
  | reifNotin b x l =>
    exact ⟨_, rfl, step_reifNotin (hbools b mem_cons_self) (hopds x mem_cons_self) hlisted⟩
  | arith r const ts => exact ⟨_, rfl, step_arith (opdsBelow_map_snd.1 hopds)⟩
  | alldifferent l => exact ⟨_, rfl, step_alldifferent hopds⟩
  | max2 x y t =>
    exact ⟨_, rfl, step_max2 (hopds x (by simp [Constr.opds])) (hopds y (by simp [Constr.opds]))
      (hopds t (by simp [Constr.opds]))⟩
  | min2 x y t =>
    exact ⟨_, rfl, step_min2 (hopds x (by simp [Constr.opds])) (hopds y (by simp [Constr.opds]))
      (hopds t (by simp [Constr.opds]))⟩
  | maxL l t =>
    exact ⟨_, rfl, step_maxlist (fun v hv => hopds v (mem_cons_of_mem t hv)) (hopds t mem_cons_self) hlisted⟩
  | minL l t =>
    exact ⟨_, rfl, step_minlist (fun v hv => hopds v (mem_cons_of_mem t hv)) (hopds t mem_cons_self) hlisted⟩
  | reifImp k b r const ts => exact step_link hwf (hbools b mem_cons_self) (opdsBelow_map_snd.1 hopds)
  | iff e f =>
    exact step_combination asserts_iff (fun z hz => hbools z (mem_append_left _ hz))
      fun z hz => hbools z (mem_append_right _ hz)
  | imp e f =>
    exact step_combination asserts_imp (fun z hz => hbools z (mem_append_left _ hz))
      fun z hz => hbools z (mem_append_right _ hz)
  | or e f =>
    exact step_combination asserts_or (fun z hz => hbools z (mem_append_left _ hz))
      fun z hz => hbools z (mem_append_right _ hz)
  | and e f =>
    obtain ⟨he, hf⟩ := not_or.1 hstops
    exact step_combination (asserts_and he hf) (fun z hz => hbools z (mem_append_left _ hz))
      fun z hz => hbools z (mem_append_right _ hz)
  | xor e f =>
    exact step_combination asserts_xor (fun z hz => hbools z (mem_append_left _ hz))
      fun z hz => hbools z (mem_append_right _ hz)
  | not e => exact step_not hbools hstops
  | ifC b x y t =>
    exact ⟨_, rfl, step_ifC (hbools b mem_cons_self).1 (hopds x (by simp [Constr.opds]))
      (hopds y (by simp [Constr.opds])) (hopds t (by simp [Constr.opds]))⟩
  | tableIn vars tuples => exact exists_dumpTableIn hinv hopds hwf
  | tableNotin vars tuples => exact exists_dumpTableNotin hinv hopds hwf

theorem dumpConstr_stops (hbools : ∀ b ∈ c.bools, IsBool st b) (h : c.Stops) : dumpConstr c st = none := by
  cases c with
  | and e f =>
    obtain ⟨nx, st1, hd1, _, h1⟩ := dumps_boolExp noTable e st fun z hz => hbools z (mem_append_left _ hz)
    obtain ⟨ny, st2, hd2, _, _⟩ := dumps_boolExp noTable f st1 fun z hz => (hbools z (mem_append_right _ hz)).step h1
    change (dumpBoolExp e st).bind _ = _
    rw [hd1]
    change (dumpBoolExp f st1).bind _ = _
    rw [hd2]
    change (dumpIs 1 nx st2).bind (dumpIs 1 ny) = none
    rcases h with rfl | rfl
    · obtain ⟨rfl, _⟩ := Prod.mk.inj (Option.some.inj hd1)
      rfl
    · obtain ⟨rfl, _⟩ := Prod.mk.inj (Option.some.inj hd2)
      cases dumpIs 1 nx st2 <;> rfl
  | not e =>
    rw [show e = .opd (.int 1) from h]
    rfl
  | _ => exact h.elim

theorem dumpConstr_of_not_listed (h : ¬ c.Listed) : dumpConstr c st = some (st.assert (.or [])) := by
  cases c with
  | reifIn b x l | reifNotin b x l =>
    rw [show l = [] from not_not.1 h]
    rfl
  | maxL l t | minL l t =>
    rw [show l = [] from not_not.1 h]
    rfl
  | _ => exact absurd trivial h

end

/-! # Solutions of what is dumped -/

/-! ## The list that is dumped -/

def fuse : List Constr → List Constr
  | [] => []
  | .imp (.opd x) (.opd (.var b)) :: .reifImp .reif (.var b') r const ts :: constrs =>
    if b = b' ∧ r ≠ .neq then .reifImp .imp x r const ts :: fuse constrs
    else .imp (.opd x) (.opd (.var b)) :: fuse (.reifImp .reif (.var b') r const ts :: constrs)
  | c :: constrs => c :: fuse constrs

def dropped : List Constr → List Constr
  | [] => []
  | .imp (.opd _) (.opd (.var b)) :: .reifImp .reif (.var b') r const ts :: constrs =>
    if b = b' ∧ r ≠ .neq then .reifImp .reif (.var b') r const ts :: dropped constrs
    else dropped (.reifImp .reif (.var b') r const ts :: constrs)
  | _ :: constrs => dropped constrs

def dumpAll (constrs : List Constr) (st : Dump) : Option Dump := constrs.foldlM (fun st c => dumpConstr c st) st

theorem dumpConstrs_eq (constrs : List Constr) (st : Dump) : dumpConstrs constrs st = dumpAll (fuse constrs) st := by
  induction constrs using fuse.induct generalizing st with
  | case1 => rfl
  | case2 x b b' r const ts constrs h ih =>
    unfold dumpConstrs fuse
    rw [if_pos h, if_pos h]
    exact congrArg _ (funext ih)
  | case3 x b b' r const ts constrs h ih =>
    unfold dumpConstrs fuse
    rw [if_neg h, if_neg h]
    exact congrArg _ (funext ih)
  | case4 c constrs hc ih =>
    rw [dumpConstrs, fuse]
    · exact congrArg _ (funext ih)
    · exact hc
    · exact hc

/-- What is dumped and what is lost of a list of constraints. -/
inductive Fused : List Constr → List Constr → List Constr → Prop
  | nil : Fused [] [] []
  | fuse {constrs kept lost : List Constr} (x : Opd) (b : ℕ) (r : Rel) (const : ℤ) (ts : Terms)
      (h : Fused constrs kept lost) :
      Fused (.imp (.opd x) (.opd (.var b)) :: .reifImp .reif (.var b) r const ts :: constrs)
        (.reifImp .imp x r const ts :: kept) (.reifImp .reif (.var b) r const ts :: lost)
  | keep {constrs kept lost : List Constr} (c : Constr) (h : Fused constrs kept lost) :
      Fused (c :: constrs) (c :: kept) lost

theorem fused (constrs : List Constr) : Fused constrs (fuse constrs) (dropped constrs) := by
  induction constrs using fuse.induct with
  | case1 => exact .nil
  | case2 x b b' r const ts constrs h ih =>
    unfold fuse dropped
    rw [if_pos h, if_pos h]
    obtain ⟨rfl, _⟩ := h
    exact .fuse x b r const ts ih
  | case3 x b b' r const ts constrs h ih =>
    unfold fuse dropped
    rw [if_neg h, if_neg h]
    exact .keep _ ih
  | case4 c constrs hc ih =>
    rw [fuse, dropped]
    · exact .keep c ih
    · exact hc
    · exact hc

section
variable {tab : Table} {st st' : Dump} {c : Constr} {constrs kept lost : List Constr} {ρ τ : ℕ → ℤ}
  {p q r : (ℕ → ℤ) → Prop}

namespace Fused

section
variable (h : Fused constrs kept lost)
include h

theorem holds_iff : (∀ c ∈ constrs, c.Holds tab ρ) ↔ (∀ c ∈ kept, c.Holds tab ρ) ∧ ∀ c ∈ lost, c.Holds tab ρ := by
  induction h with
  | nil => exact ⟨fun h => ⟨h, h⟩, fun h => h.1⟩
  | fuse x b r const ts _ ih =>
    rw [forall_mem_cons, forall_mem_cons, ih, forall_mem_cons, forall_mem_cons]
    change (x.True ρ → (Opd.var b).True ρ) ∧ ((Opd.var b).True ρ ↔ arithHolds ρ r const ts) ∧ _ ↔
      ((x.True ρ → arithHolds ρ r const ts) ∧ _) ∧ ((Opd.var b).True ρ ↔ arithHolds ρ r const ts) ∧ _
    tauto
  | keep c _ ih => rw [forall_mem_cons, forall_mem_cons, ih, and_assoc]

theorem forall_kept {P : Constr → Prop}
    (hP : ∀ x b r const ts, P (.imp (.opd x) (.opd (.var b))) → P (.reifImp .reif (.var b) r const ts) →
      P (.reifImp .imp x r const ts)) (hconstrs : ∀ c ∈ constrs, P c) : ∀ c ∈ kept, P c := by
  induction h with
  | nil => exact hconstrs
  | fuse x b r const ts _ ih =>
    rw [forall_mem_cons, forall_mem_cons] at hconstrs
    rw [forall_mem_cons]
    exact ⟨hP x b r const ts hconstrs.1 hconstrs.2.1, ih hconstrs.2.2⟩
  | keep c _ ih =>
    rw [forall_mem_cons] at hconstrs ⊢
    exact ⟨hconstrs.1, ih hconstrs.2⟩

theorem lost_iff : (∀ c ∈ lost, c.Holds tab ρ) ↔ ∀ c ∈ lost, c.Holds noTable ρ := by
  induction h with
  | nil => exact forall₂_congr fun c hc => absurd hc not_mem_nil
  | fuse x b r const ts _ ih =>
    rw [forall_mem_cons, forall_mem_cons, ih]
    rfl
  | keep c _ ih => exact ih

end

end Fused

/-! ## Declared constraints -/

structure Constr.Declared (st : Dump) (c : Constr) : Prop where
  wellFormed : c.WellFormed
  below : OpdsBelow st.next c.opds
  bools : ∀ b ∈ c.bools, IsBool st b

theorem Constr.Declared.step (h : c.Declared st) (hstep : Step tab st st' p q r) : c.Declared st' :=
  ⟨h.wellFormed, fun x hx => (h.below x hx).mono hstep.ext.le, fun b hb => (h.bools b hb).step hstep⟩

theorem Constr.Declared.assert {f : Form} (h : c.Declared st) : c.Declared (st.assert f) :=
  ⟨h.wellFormed, h.below, fun b hb => ⟨(h.bools b hb).below, fun τ hτ => (h.bools b hb).bit τ (sat_assert.1 hτ).1,
    (h.bools b hb).const⟩⟩

theorem local_holds (hinv : st.Inv tab) (h : c.Declared st) : Local st.next fun τ => c.Holds tab τ := by
  intro τ τ' hag
  have hb : ∀ b ∈ c.bools, b.val τ' = b.val τ := fun b hb => (h.bools b hb).below.val_eq hag
  have hx : ∀ x ∈ c.opds, x.val τ' = x.val τ := fun x hx => (h.below x hx).val_eq hag
  have hexp : ∀ e : BoolExp, (∀ z ∈ e.opds, z ∈ c.bools) → (e.Holds τ' ↔ e.Holds τ) :=
    fun e he => local_boolExp (fun z hz => (h.bools z (he z hz)).below) τ τ' hag
  cases c with
  | reifIn b x l | reifNotin b x l =>
    simp only [Constr.Holds, Opd.True]
    rw [hb b mem_cons_self, hx x mem_cons_self]
  | arith r const ts => exact local_arith (opdsBelow_map_snd.1 h.below) τ τ' hag
  | alldifferent l =>
    change (l.map (Opd.val τ')).Nodup ↔ (l.map (Opd.val τ)).Nodup
    rw [show l.map (Opd.val τ') = l.map (Opd.val τ) from map_congr_left hx]
  | max2 x y t | min2 x y t =>
    simp only [Constr.Holds]
    rw [hx x (by simp [Constr.opds]), hx y (by simp [Constr.opds]), hx t (by simp [Constr.opds])]
  | maxL l t =>
    have hvs : OpdsBelow st.next l := fun v hv => h.below v (mem_cons_of_mem t hv)
    have ht := h.below t mem_cons_self
    exact ((local_member hvs ht).and (@local_foreach t .le l st.next hvs ht)) τ τ' hag
  | minL l t =>
    have hvs : OpdsBelow st.next l := fun v hv => h.below v (mem_cons_of_mem t hv)
    have ht := h.below t mem_cons_self
    exact ((local_member hvs ht).and (@local_foreach t .ge l st.next hvs ht)) τ τ' hag
  | reifImp k b r const ts =>
    refine con_congr k.Holds ?_ (local_arith (opdsBelow_map_snd.1 h.below) τ τ' hag)
    unfold Opd.True
    rw [hb b mem_cons_self]
  | iff e f => exact iff_congr (hexp e fun z => mem_append_left _) (hexp f fun z => mem_append_right _)
  | imp e f => exact imp_congr (hexp e fun z => mem_append_left _) (hexp f fun z => mem_append_right _)
  | or e f => exact or_congr (hexp e fun z => mem_append_left _) (hexp f fun z => mem_append_right _)
  | and e f => exact and_congr (hexp e fun z => mem_append_left _) (hexp f fun z => mem_append_right _)
  | xor e f =>
    exact not_congr (iff_congr (hexp e fun z => mem_append_left _) (hexp f fun z => mem_append_right _))
  | not e => exact not_congr (hexp e fun z hz => hz)
  | ifC b x y t =>
    simp only [Constr.Holds]
    rw [hb b mem_cons_self, hx x (by simp [Constr.opds]), hx y (by simp [Constr.opds]), hx t (by simp [Constr.opds])]
  | tableIn vars tuples => exact local_exists_tuple hinv h.below τ τ' hag
  | tableNotin vars tuples =>
    exact forall₂_congr fun tuple _ => not_congr (local_tuple hinv h.below τ τ' hag)

/-! ## Runs -/

section
variable (hinv : st.Inv tab)
include hinv

theorem dumpAll_step (hdecl : ∀ c ∈ constrs, c.Declared st) (hlisted : ∀ c ∈ constrs, c.Listed)
    (hstops : ∀ c ∈ constrs, ¬ c.Stops) :
    ∃ st', dumpAll constrs st = some st' ∧
      Step tab st st' (fun τ => ∀ c ∈ constrs, c.Holds tab τ) (fun τ => ∀ c ∈ constrs, c.Holds tab τ) free := by
  induction constrs generalizing st with
  | nil =>
    refine ⟨st, rfl, (Step.refl tab st).congr fun τ _ => iff_of_true trivial fun c hc => ?_⟩
    exact absurd hc not_mem_nil
  | cons c constrs ih =>
    rw [forall_mem_cons] at hdecl hlisted hstops
    obtain ⟨st1, hd1, h1⟩ := step_constr hinv hdecl.1.wellFormed hdecl.1.below hdecl.1.bools hlisted.1 hstops.1
    obtain ⟨st2, hd2, h2⟩ := ih (h1.inv hinv) (fun d hd => (hdecl.2 d hd).step h1) hlisted.2 hstops.2
    have hlocal : Local st.next fun τ => ∀ d ∈ constrs, d.Holds tab τ :=
      fun τ τ' hag => forall₂_congr fun d hd => local_holds hinv (hdecl.2 d hd) τ τ' hag
    refine ⟨st2, ?_, (h1.and h2 hlocal).congr fun τ _ => by rw [forall_mem_cons]⟩
    change (dumpConstr c st).bind _ = _
    rw [hd1]
    exact hd2

theorem exists_dumpConstr (hdecl : c.Declared st) (hstops : ¬ c.Stops) :
    ∃ st', dumpConstr c st = some st' ∧ st'.Inv tab ∧ (∀ d : Constr, d.Declared st → d.Declared st') ∧
      (∃ new, st'.out = st.out ++ new) ∧ (¬ c.Listed → .or [] ∈ st'.out) := by
  by_cases hlisted : c.Listed
  · obtain ⟨st', hd, h⟩ := step_constr hinv hdecl.wellFormed hdecl.below hdecl.bools hlisted hstops
    obtain ⟨new, hnew, _⟩ := h.grows
    exact ⟨st', hd, h.inv hinv, fun d hd => hd.step h, ⟨new, hnew⟩, fun h => absurd hlisted h⟩
  · refine ⟨_, dumpConstr_of_not_listed hlisted, ?_, fun d hd => hd.assert, ⟨[.or []], rfl⟩, fun _ => ?_⟩
    · refine @inv_of_table tab st (st.assert (.or [])) (Nat.le_refl _) rfl (fun τ hτ => (sat_assert.1 hτ).1)
        (fun _ τ τ' _ => ?_) hinv
      have hor : ∀ τ, ¬ (st.assert (.or [])).Sat τ := by
        intro τ hτ
        obtain ⟨_, h, _⟩ := (sat_assert.1 hτ).2
        exact not_mem_nil h
      exact iff_of_false (hor τ') (hor τ)
    · exact mem_append_right _ mem_cons_self

theorem dumpAll_stops (hdecl : ∀ c ∈ constrs, c.Declared st) (hstops : ∃ c ∈ constrs, c.Stops) :
    dumpAll constrs st = none := by
  induction constrs generalizing st with
  | nil =>
    obtain ⟨c, hc, _⟩ := hstops
    exact absurd hc not_mem_nil
  | cons c constrs ih =>
    rw [forall_mem_cons] at hdecl
    change (dumpConstr c st).bind _ = _
    by_cases hc : c.Stops
    · rw [dumpConstr_stops hdecl.1.bools hc]
      rfl
    · obtain ⟨st1, hd1, hinv1, hdecl1, _⟩ := exists_dumpConstr hinv hdecl.1 hc
      rw [hd1]
      refine ih hinv1 (fun d hd => hdecl1 d (hdecl.2 d hd)) ?_
      rw [exists_mem_cons_iff] at hstops
      exact hstops.resolve_left hc

theorem dumpAll_not_listed (hdecl : ∀ c ∈ constrs, c.Declared st)
    (hstops : ∀ c ∈ constrs, ¬ c.Stops) (h : .or [] ∈ st.out ∨ ∃ c ∈ constrs, ¬ c.Listed) :
    ∃ st', dumpAll constrs st = some st' ∧ .or [] ∈ st'.out := by
  induction constrs generalizing st with
  | nil => exact ⟨st, rfl, h.resolve_right fun ⟨c, hc, _⟩ => not_mem_nil hc⟩
  | cons c constrs ih =>
    rw [forall_mem_cons] at hdecl hstops
    obtain ⟨st1, hd1, hinv1, hdecl1, ⟨new, hnew⟩, hor⟩ := exists_dumpConstr hinv hdecl.1 hstops.1
    obtain ⟨st2, hd2, h2⟩ := @ih st1 hinv1 (fun d hd => hdecl1 d (hdecl.2 d hd)) hstops.2 <| by
      rcases h with h | h
      · rw [hnew]
        exact .inl (mem_append_left _ h)
      · rw [exists_mem_cons_iff] at h
        exact h.imp hor id
    refine ⟨st2, ?_, h2⟩
    change (dumpConstr c st).bind _ = _
    rw [hd1]
    exact hd2

end

/-! ## Solutions -/

/-- What holds when the variables of the store are declared: a variable of a table has its constraint in the list. -/
structure Declared (constrs : List Constr) (st : Dump) : Prop where
  loc : Local st.next st.Sat
  written : ∀ f ∈ st.out, f.WellFormed
  each : ∀ c ∈ constrs, c.Declared st
  posted : ∀ i a b, st.table i a = some b → .reifImp .reif b .eq (-a) [(1, .var i)] ∈ constrs

/-- The assertions are formulas, and `ρ` can be extended to the new variables when it solves the constraints, and only
then; nothing is written only when it does not solve them. -/
def Meets (constrs : List Constr) (st : Dump) (ρ : ℕ → ℤ) : Prop :=
  match dumpConstrs constrs st with
  | none => ¬ ∀ c ∈ constrs, c.Holds noTable ρ
  | some st' => (∀ f ∈ st'.out, f.WellFormed) ∧
      ((∃ τ, Agree st.next ρ τ ∧ st'.Sat τ) ↔ ∀ c ∈ constrs, c.Holds noTable ρ)

theorem Declared.inv (h : Declared constrs st) : st.Inv st.table where
  loc := h.loc
  keeps := fun _ _ _ hb => hb
  isBool := fun i a b hb => (h.each _ (h.posted i a b hb)).bools b mem_cons_self
  defined := fun i a b hb hnone => by
    rw [hnone] at hb
    exact nomatch hb

theorem Declared.each_fused (h : Declared constrs st) : ∀ c ∈ fuse constrs, c.Declared st :=
  (fused constrs).forall_kept (fun x _ _ _ _ himp hreif => ⟨hreif.wellFormed, hreif.below, fun b hb => by
    rw [mem_singleton.1 hb]
    exact himp.bools x mem_cons_self⟩) h.each

theorem holds_of_table (htab : ∀ i a b, tab i a = some b → (b.True ρ ↔ ρ i = a)) :
    c.Holds tab ρ ↔ c.Holds noTable ρ := by
  have hno : ∀ i a, EqVia noTable ρ (.var i) a ↔ ρ i = a := fun i a => Iff.rfl
  have hvia : ∀ v a, EqVia tab ρ v a ↔ EqVia noTable ρ v a := by
    intro v a
    cases v with
    | int z => exact Iff.rfl
    | var i =>
      cases hb : tab i a with
      | none => rw [eqVia_var hb, hno]
      | some b =>
        rw [hno, ← htab i a b hb]
        unfold EqVia
        dsimp only
        rw [hb]
  have htuple : ∀ vars tuple, tupleHolds tab ρ vars tuple ↔ tupleHolds noTable ρ vars tuple := by
    intro vars tuple
    apply forall₂_congr
    intro p _
    obtain ⟨v, a⟩ := p
    cases a with
    | any => exact Iff.rfl
    | int a => exact hvia v a
  cases c with
  | tableIn vars tuples => exact exists_congr fun tuple => and_congr_right fun _ => htuple vars tuple
  | tableNotin vars tuples => exact forall₂_congr fun tuple _ => not_congr (htuple vars tuple)
  | _ => exact Iff.rfl

theorem Declared.holds_iff (h : Declared constrs st) :
    (∀ c ∈ constrs, c.Holds st.table ρ) ↔ ∀ c ∈ constrs, c.Holds noTable ρ := by
  have hposted : ∀ tab, (∀ c ∈ constrs, c.Holds tab ρ) → ∀ i a b, st.table i a = some b → (b.True ρ ↔ ρ i = a) := by
    intro tab hholds i a b hb
    apply (show b.True ρ ↔ _ from hholds _ (h.posted i a b hb)).trans
    rw [arithHolds_single]
    rfl
  constructor
  · intro hholds c hc
    exact (holds_of_table (hposted _ hholds)).1 (hholds c hc)
  · intro hholds c hc
    exact (holds_of_table (hposted _ hholds)).2 (hholds c hc)

theorem Declared.holds_iff_fused (h : Declared constrs st) : (∀ c ∈ constrs, c.Holds noTable ρ) ↔
    (∀ c ∈ fuse constrs, c.Holds st.table ρ) ∧ ∀ c ∈ dropped constrs, c.Holds noTable ρ := by
  rw [← h.holds_iff, (fused constrs).holds_iff, (fused constrs).lost_iff]

theorem dumpConstrs_meets_iff (h : Declared constrs st) (hρ : st.Sat ρ) : Meets constrs st ρ ↔
      ((∃ c ∈ fuse constrs, c.Stops) ∨ ∀ c ∈ fuse constrs, c.Listed) ∧
      ((∀ c ∈ fuse constrs, c.Holds st.table ρ) → ∀ c ∈ dropped constrs, c.Holds noTable ρ) := by
  unfold Meets
  rw [h.holds_iff_fused, dumpConstrs_eq]
  by_cases hstops : ∃ c ∈ fuse constrs, c.Stops
  · rw [dumpAll_stops h.inv h.each_fused hstops]
    obtain ⟨c, hc, hstop⟩ := hstops
    have hnot : ¬ ∀ c ∈ fuse constrs, c.Holds st.table ρ := fun hholds => hstop.not_holds (hholds c hc)
    exact iff_of_true (fun hholds => hnot hholds.1) ⟨.inl ⟨c, hc, hstop⟩, fun hholds => absurd hholds hnot⟩
  · have hgo : ∀ c ∈ fuse constrs, ¬ c.Stops := fun c hc hstop => hstops ⟨c, hc, hstop⟩
    rw [or_iff_right hstops]
    by_cases hlisted : ∀ c ∈ fuse constrs, c.Listed
    · obtain ⟨st', hd, hstep⟩ := dumpAll_step h.inv h.each_fused hlisted hgo
      obtain ⟨new, hnew, hwf⟩ := hstep.grows
      have hwritten : ∀ f ∈ st'.out, f.WellFormed := by
        rw [hnew, forall_mem_append]
        exact ⟨h.written, hwf⟩
      have hlocal : Local st.next fun τ => ∀ c ∈ fuse constrs, c.Holds st.table τ :=
        fun τ τ' hag => forall₂_congr fun c hc => local_holds h.inv (h.each_fused c hc) τ τ' hag
      rw [hd, and_iff_right hlisted]
      dsimp only
      rw [and_iff_right hwritten, hstep.ext.exists_iff h.loc hlocal (fun _ _ hq => hq) hρ]
      exact iff_self_and
    · obtain ⟨c, hc⟩ := not_forall.1 hlisted
      obtain ⟨hc, hnot⟩ := Classical.not_imp.1 hc
      obtain ⟨st', hd, hor⟩ := dumpAll_not_listed h.inv h.each_fused hgo (.inr ⟨c, hc, hnot⟩)
      rw [hd]
      refine iff_of_false (fun hmeets => ?_) fun hcond => hlisted hcond.1
      exact absurd (show 2 ≤ 0 from hmeets.1 _ hor) (by decide)

end

/-! ## A definition that is lost -/

/-- `X1`, `X2`, `X3` in `0..1`. -/
def lostStart : Dump := (newDvar 0 1 (newDvar 0 1 (newDvar 0 1 ⟨1, noTable, []⟩).2).2).2

/-- `X1 => X2` and `X2 <=> (X3 >= 1)`. -/
def lostConstrs : List Constr :=
  [.imp (.opd (.var 1)) (.opd (.var 2)), .reifImp .reif (.var 2) .ge (-1) [(1, .var 3)]]

theorem lostStart_declared : Declared lostConstrs lostStart := by
  have hstep : ∀ st : Dump, Step noTable st (newDvar 0 1 st).2 free free _ := fun st => step_newBool (local_true _)
  have h1 : IsBool (newDvar 0 1 ⟨1, noTable, []⟩).2 (.var 1) := isBool_newDvar
  have h2 : IsBool (newDvar 0 1 (newDvar 0 1 ⟨1, noTable, []⟩).2).2 (.var 2) := isBool_newDvar
  have hb1 : IsBool lostStart (.var 1) := (h1.step (hstep _)).step (hstep _)
  have hb2 : IsBool lostStart (.var 2) := h2.step (hstep _)
  have hb3 : IsBool lostStart (.var 3) := isBool_newDvar
  refine ⟨?_, by decide, ?_, fun i a b hb => nomatch hb⟩
  · exact (hstep _).ext.loc ((hstep _).ext.loc ((hstep _).ext.loc fun τ τ' _ => iff_of_true nofun nofun))
  · unfold lostConstrs
    rw [forall_mem_cons, forall_mem_singleton]
    constructor
    · exact ⟨trivial, fun x hx => absurd hx not_mem_nil, forall_mem_cons.2 ⟨hb1, forall_mem_singleton.2 hb2⟩⟩
    · exact ⟨.inr (.inr (.inl rfl)), forall_mem_singleton.2 hb3.below, forall_mem_singleton.2 hb2⟩

/-- `X2` may be 1 with `X3 = 0`, since its definition is not written. -/
theorem dumpConstrs_loses_definition : Declared lostConstrs lostStart ∧
    (lostStart.Sat fun i => if i = 2 then 1 else 0) ∧ ¬ Meets lostConstrs lostStart fun i => if i = 2 then 1 else 0 := by
  refine ⟨lostStart_declared, by decide, fun hmeets => ?_⟩
  have hdump : dumpConstrs lostConstrs lostStart =
      some (dumpReifImpConstr .imp (.var 1) .ge (-1) [(1, .var 3)] lostStart) := rfl
  unfold Meets at hmeets
  rw [hdump] at hmeets
  have hsolution := hmeets.2.1 ⟨_, Agree.refl _ _, by decide⟩
  have hdef := hsolution _ (mem_cons_of_mem _ mem_cons_self)
  exact absurd (hdef.1 rfl) (by decide)

theorem dumpConstrs_meets_iff_lost : Meets lostConstrs lostStart fun _ => 0 := by
  refine (dumpConstrs_meets_iff lostStart_declared (by decide)).2 ⟨.inr fun c hc => ?_, fun _ => ?_⟩
  · rw [show fuse lostConstrs = [.reifImp .imp (.var 1) .ge (-1) [(1, .var 3)]] from rfl] at hc
    rw [mem_singleton.1 hc]
    trivial
  · refine forall_mem_singleton.2 (iff_of_false ?_ ?_)
    · decide
    · decide

end Picat.Smt
