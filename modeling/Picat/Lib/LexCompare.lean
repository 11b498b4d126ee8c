import Mathlib.Data.List.Forall2
import Mathlib.Algebra.Order.Ring.Int

/-!
# Lexicographic comparisons of lists

A three-way comparison `c` of elements, as C code has it, need not be an order: some elements may be loose, which means
that they compare as equal with each other whatever their keys are, and some pairs may be compared the wrong way.

* `lexCompare_total_iff` : the lexicographic comparison is one just where none of the three occurs.
-/

namespace LexCompare

variable {α β γ : Type*} [LinearOrder β]

/-- `b` where `a` is 0. -/
def andThen (a b : ℤ) : ℤ := if a ≠ 0 then a else b

/-- By the first elements that do not compare as equal; what ends first is below. -/
def lexCompare (c : α → α → ℤ) : List α → List α → ℤ
  | [], [] => 0
  | [], _ :: _ => -1
  | _ :: _, [] => 1
  | x :: xs, y :: ys => andThen (c x y) (lexCompare c xs ys)

/-- `f` is the comparison of a total order on `S`. -/
structure TotalOn (f : γ → γ → ℤ) (S : Set γ) : Prop where
  eq_zero : ∀ s ∈ S, ∀ t ∈ S, f s t = 0 ↔ s = t
  antisymm : ∀ s ∈ S, ∀ t ∈ S, (f s t).sign = -(f t s).sign
  trans : ∀ s ∈ S, ∀ t ∈ S, ∀ u ∈ S, f s t ≤ 0 → f t u ≤ 0 → f s u ≤ 0

section
variable (c : α → α → ℤ) (key : α → β) (loose : α → Prop) (bad : α → α → Prop)

/-- `c` compares by the keys, but takes all loose elements for equal and bad pairs the wrong way. -/
structure Keys : Prop where
  eq : ∀ x y, key x = key y → c x y = 0
  lt : ∀ x y, key x < key y → ¬ (loose x ∧ loose y) → c x y < 0
  gt : ∀ x y, key y < key x → ¬ (loose x ∧ loose y) → ¬ bad x y → 0 < c x y
  eq_of_loose : ∀ x y, loose x → loose y → c x y = 0
  of_bad : ∀ x y, bad x y → key y < key x ∧ ¬ (loose x ∧ loose y) ∧ c x y ≤ 0

def Matches (x y : α) : Prop := key x = key y ∨ loose x ∧ loose y

/-- After elements that match comes a bad pair, which is compared the wrong way unless the rest tells otherwise. -/
inductive Wrong : List α → List α → Prop
  | here {x y X Y} : bad x y → (c x y < 0 ∨ lexCompare c X Y ≤ 0) → Wrong (x :: X) (y :: Y)
  | there {x y X Y} : Matches key loose x y → Wrong X Y → Wrong (x :: X) (y :: Y)

/-- After elements that match comes one that is not loose, with loose ones around it, and these are in the other order by
what follows them. Where keys are equal, the rest counts as well. -/
inductive Around : List α → List α → List α → Prop
  | here {x y z X Y Z} : loose x → ¬ loose y → loose z →
      (key x < key y ∨ key x = key y ∧ lexCompare c X Y < 0) →
      (key y < key z ∨ key y = key z ∧ lexCompare c Y Z < 0) → lexCompare c Z X < 0 → Around (x :: X) (y :: Y) (z :: Z)
  | there {x y z X Y Z} : Matches key loose x y → Matches key loose y z → Matches key loose z x → Around X Y Z →
      Around (x :: X) (y :: Y) (z :: Z)

end

section
variable {c : α → α → ℤ} {key : α → β} {loose : α → Prop} {bad : α → α → Prop} {x y z : α} {X Y Z : List α}

omit [LinearOrder β] in
theorem Matches.symm (h : Matches key loose x y) : Matches key loose y x := h.imp Eq.symm And.symm

theorem andThen_of_ne {a b : ℤ} (h : a ≠ 0) : andThen a b = a := if_pos h

theorem andThen_zero (b : ℤ) : andThen 0 b = b := if_neg (not_not.2 rfl)

theorem andThen_assoc (a b d : ℤ) : andThen (andThen a b) d = andThen a (andThen b d) := by
  by_cases h : a = 0
  · rw [h, andThen_zero, andThen_zero]
  · rw [andThen_of_ne h, andThen_of_ne h, andThen_of_ne h]

theorem lexCompare_cons_of_ne (h : c x y ≠ 0) : lexCompare c (x :: X) (y :: Y) = c x y := andThen_of_ne h

theorem lexCompare_cons_of_eq (h : c x y = 0) : lexCompare c (x :: X) (y :: Y) = lexCompare c X Y := by
  rw [lexCompare, h, andThen_zero]

theorem lexCompare_append_self (h : ∀ x, c x x = 0) (P : List α) : lexCompare c (P ++ X) (P ++ Y) = lexCompare c X Y := by
  induction P with
  | nil => rfl
  | cons x P ih => rw [List.cons_append, List.cons_append, lexCompare_cons_of_eq (h x), ih]

namespace Keys
variable (hk : Keys c key loose bad)
include hk

theorem eq_zero (h : Matches key loose x y) : c x y = 0 := by
  rcases h with h | ⟨hx, hy⟩
  · exact hk.eq x y h
  · exact hk.eq_of_loose x y hx hy

theorem lexCompare_of_matches (h : Matches key loose x y) :
    lexCompare c (x :: X) (y :: Y) = lexCompare c X Y := lexCompare_cons_of_eq (hk.eq_zero h)

theorem eq_zero_of_forall₂ (h : List.Forall₂ (Matches key loose) X Y) : lexCompare c X Y = 0 := by
  induction h with
  | nil => rfl
  | cons hxy _ ih => rw [hk.lexCompare_of_matches hxy, ih]

theorem of_wrong (h : Wrong c key loose bad X Y) : lexCompare c X Y ≤ 0 ∧ lexCompare c Y X < 0 := by
  induction h with
  | @here x y X Y hbad hrest =>
    obtain ⟨hlt, hloose, hle⟩ := hk.of_bad x y hbad
    have hback := hk.lt y x hlt fun h => hloose h.symm
    refine ⟨?_, by rwa [lexCompare_cons_of_ne (by omega)]⟩
    by_cases h0 : c x y = 0
    · rw [lexCompare_cons_of_eq h0]
      rcases hrest with hneg | hrest
      · omega
      · exact hrest
    · rwa [lexCompare_cons_of_ne h0]
  | there hxy _ ih => rwa [hk.lexCompare_of_matches hxy, hk.lexCompare_of_matches hxy.symm]

theorem cases_pair (X Y : List α) :
    List.Forall₂ (Matches key loose) X Y ∨ Wrong c key loose bad X Y ∨ Wrong c key loose bad Y X ∨
      (lexCompare c X Y < 0 ∧ 0 < lexCompare c Y X) ∨ (0 < lexCompare c X Y ∧ lexCompare c Y X < 0) := by
  induction X generalizing Y with
  | nil =>
    cases Y with
    | nil => exact .inl List.Forall₂.nil
    | cons y Y => exact .inr (.inr (.inr (.inl ⟨neg_one_lt_zero, one_pos⟩)))
  | cons x X ih =>
    cases Y with
    | nil => exact .inr (.inr (.inr (.inr ⟨one_pos, neg_one_lt_zero⟩)))
    | cons y Y =>
      by_cases hm : Matches key loose x y
      · rw [hk.lexCompare_of_matches hm, hk.lexCompare_of_matches hm.symm]
        rcases ih Y with h | h | h | h
        · exact .inl (List.Forall₂.cons hm h)
        · exact .inr (.inl (Wrong.there hm h))
        · exact .inr (.inr (.inl (Wrong.there hm.symm h)))
        · exact .inr (.inr (.inr h))
      · -- the first elements that do not match
        have side : ∀ x y X Y, key x < key y → ¬ (loose x ∧ loose y) → Wrong c key loose bad (y :: Y) (x :: X) ∨
            (lexCompare c (x :: X) (y :: Y) < 0 ∧ 0 < lexCompare c (y :: Y) (x :: X)) := by
          intro x y X Y hlt hloose
          have hneg := hk.lt x y hlt hloose
          rw [lexCompare_cons_of_ne hneg.ne]
          by_cases hbad : bad y x
          · by_cases hrest : c y x < 0 ∨ lexCompare c Y X ≤ 0
            · exact .inl (Wrong.here hbad hrest)
            · push Not at hrest
              have hle := (hk.of_bad y x hbad).2.2
              rw [lexCompare_cons_of_eq (by omega)]
              exact .inr ⟨hneg, hrest.2⟩
          · have hpos := hk.gt y x hlt (fun h => hloose h.symm) hbad
            rw [lexCompare_cons_of_ne hpos.ne']
            exact .inr ⟨hneg, hpos⟩
        unfold Matches at hm
        push Not at hm
        have hloose : ¬ (loose x ∧ loose y) := fun h => hm.2 h.1 h.2
        rcases lt_or_gt_of_ne hm.1 with hlt | hlt
        · rcases side x y X Y hlt hloose with h | h
          · exact .inr (.inr (.inl h))
          · exact .inr (.inr (.inr (.inl h)))
        · rcases side y x Y X hlt (fun h => hloose h.symm) with h | h
          · exact .inr (.inl h)
          · exact .inr (.inr (.inr (.inr h.symm)))

/-! ## Three lists -/

theorem of_around (h : Around c key loose X Y Z) :
    lexCompare c X Y < 0 ∧ lexCompare c Y Z < 0 ∧ lexCompare c Z X < 0 := by
  induction h with
  | @here x y z X Y Z hx hy hz hxy hyz hzx =>
    refine ⟨?_, ?_, ?_⟩
    · rcases hxy with hlt | ⟨heq, hrest⟩
      · have hneg := hk.lt x y hlt fun h => hy h.2
        rwa [lexCompare_cons_of_ne hneg.ne]
      · rwa [lexCompare_cons_of_eq (hk.eq x y heq)]
    · rcases hyz with hlt | ⟨heq, hrest⟩
      · have hneg := hk.lt y z hlt fun h => hy h.1
        rwa [lexCompare_cons_of_ne hneg.ne]
      · rwa [lexCompare_cons_of_eq (hk.eq y z heq)]
    · rwa [lexCompare_cons_of_eq (hk.eq_of_loose z x hz hx)]
  | there hxy hyz hzx _ ih =>
    rwa [hk.lexCompare_of_matches hxy, hk.lexCompare_of_matches hyz, hk.lexCompare_of_matches hzx]

theorem le_key (hback : 0 ≤ c y x) : key x ≤ key y ∨ loose x ∧ loose y := by
  by_contra hno
  push Not at hno
  exact absurd (hk.lt y x hno.1 fun h => hno.2 h.2 h.1) (not_lt.2 hback)

omit hk in
theorem heads_of_lt (h : lexCompare c (x :: X) (y :: Y) < 0) (h0 : c x y = 0) : lexCompare c X Y < 0 := by
  rwa [lexCompare_cons_of_eq h0] at h

omit hk in
theorem heads_of_gt (h : 0 < lexCompare c (x :: X) (y :: Y)) : 0 ≤ c x y := by
  by_cases h0 : c x y = 0
  · exact h0.ge
  · rw [lexCompare_cons_of_ne h0] at h
    exact h.le

def Below (c : α → α → ℤ) (X Y : List α) : Prop := lexCompare c X Y < 0 ∧ 0 < lexCompare c Y X

omit hk in
theorem below_cons (h : Below c X Y) : ∃ y Y', Y = y :: Y' := by
  cases Y with
  | nil =>
    cases X with
    | nil => exact absurd h.1 (lt_irrefl 0)
    | cons x X => exact absurd h.1 (by unfold lexCompare; decide)
  | cons y Y => exact ⟨y, Y, rfl⟩

theorem around_here (hxy : Below c (x :: X) (y :: Y)) (hyz : Below c (y :: Y) (z :: Z))
    (hzx : Below c (z :: Z) (x :: X)) (hx : loose x) (hy : ¬ loose y) (hz : loose z) :
    Around c key loose (x :: X) (y :: Y) (z :: Z) := by
  have hxyr := heads_of_lt hxy.1
  have hyzr := heads_of_lt hyz.1
  have hkxy := (hk.le_key (heads_of_gt hxy.2)).resolve_right fun h => hy h.2
  have hkyz := (hk.le_key (heads_of_gt hyz.2)).resolve_right fun h => hy h.1
  refine Around.here hx hy hz ?_ ?_ (heads_of_lt hzx.1 (hk.eq_of_loose z x hz hx))
  · exact hkxy.lt_or_eq.imp id fun heq => ⟨heq, hxyr (hk.eq x y heq)⟩
  · exact hkyz.lt_or_eq.imp id fun heq => ⟨heq, hyzr (hk.eq y z heq)⟩

omit hk in
/-- Three elements that go round match, or two of them are loose and the third one is not. -/
theorem matches_or_loose (hxy : key x ≤ key y ∨ loose x ∧ loose y) (hyz : key y ≤ key z ∨ loose y ∧ loose z)
    (hzx : key z ≤ key x ∨ loose z ∧ loose x) :
    (Matches key loose x y ∧ Matches key loose y z ∧ Matches key loose z x) ∨
      (loose x ∧ ¬ loose y ∧ loose z) ∨ (loose y ∧ ¬ loose z ∧ loose x) ∨ (loose z ∧ ¬ loose x ∧ loose y) := by
  by_cases lxy : loose x ∧ loose y
  · by_cases lz : loose z
    · exact .inl ⟨.inr lxy, .inr ⟨lxy.2, lz⟩, .inr ⟨lz, lxy.1⟩⟩
    · exact .inr (.inr (.inl ⟨lxy.2, lz, lxy.1⟩))
  · by_cases lyz : loose y ∧ loose z
    · exact .inr (.inr (.inr ⟨lyz.2, fun h => lxy ⟨h, lyz.1⟩, lyz.1⟩))
    · by_cases lzx : loose z ∧ loose x
      · exact .inr (.inl ⟨lzx.2, fun h => lxy ⟨lzx.2, h⟩, lzx.1⟩)
      · have h1 := hxy.resolve_right lxy
        have h2 := hyz.resolve_right lyz
        have h3 := hzx.resolve_right lzx
        have e1 : key x = key y := le_antisymm h1 (h2.trans h3)
        have e2 : key y = key z := le_antisymm h2 (h3.trans h1)
        exact .inl ⟨.inl e1, .inl e2, .inl (e1.trans e2).symm⟩

theorem around_of_cycle (hxy : Below c X Y) (hyz : Below c Y Z) (hzx : Below c Z X) :
    Around c key loose X Y Z ∨ Around c key loose Y Z X ∨ Around c key loose Z X Y := by
  induction X generalizing Y Z with
  | nil =>
    obtain ⟨x, X', hX⟩ := below_cons hzx
    exact absurd hX (List.cons_ne_nil x X').symm
  | cons x X ih =>
    obtain ⟨y, Y, rfl⟩ := below_cons hxy
    obtain ⟨z, Z, rfl⟩ := below_cons hyz
    have hkxy := hk.le_key (heads_of_gt hxy.2)
    have hkyz := hk.le_key (heads_of_gt hyz.2)
    have hkzx := hk.le_key (heads_of_gt hzx.2)
    rcases matches_or_loose hkxy hkyz hkzx with ⟨mxy, myz, mzx⟩ | ⟨hx, hy, hz⟩ | ⟨hy, hz, hx⟩ | ⟨hz, hx, hy⟩
    · unfold Below at hxy hyz hzx
      rw [hk.lexCompare_of_matches mxy, hk.lexCompare_of_matches mxy.symm] at hxy
      rw [hk.lexCompare_of_matches myz, hk.lexCompare_of_matches myz.symm] at hyz
      rw [hk.lexCompare_of_matches mzx, hk.lexCompare_of_matches mzx.symm] at hzx
      rcases ih hxy hyz hzx with h | h | h
      · exact .inl (Around.there mxy myz mzx h)
      · exact .inr (.inl (Around.there myz mzx mxy h))
      · exact .inr (.inr (Around.there mzx mxy myz h))
    · exact .inl (hk.around_here hxy hyz hzx hx hy hz)
    · exact .inr (.inl (hk.around_here hyz hzx hxy hy hz hx))
    · exact .inr (.inr (hk.around_here hzx hxy hyz hz hx hy))

/-- The lexicographic comparison is a total order on `S` just when no two lists of `S` match, none are compared the
wrong way, and none go round. -/
theorem lexCompare_total_iff (S : Set (List α)) : TotalOn (lexCompare c) S ↔
      (∀ X ∈ S, ∀ Y ∈ S, List.Forall₂ (Matches key loose) X Y → X = Y) ∧
      (∀ X ∈ S, ∀ Y ∈ S, ¬ Wrong c key loose bad X Y) ∧
      (∀ X ∈ S, ∀ Y ∈ S, ∀ Z ∈ S, ¬ Around c key loose X Y Z) := by
  constructor
  · intro h
    refine ⟨?_, ?_, ?_⟩
    · intro X hX Y hY hm
      exact (h.eq_zero X hX Y hY).1 (hk.eq_zero_of_forall₂ hm)
    · intro X hX Y hY hw
      obtain ⟨hle, hlt⟩ := hk.of_wrong hw
      have hsign := h.antisymm X hX Y hY
      rw [Int.sign_eq_neg_one_of_neg hlt, neg_neg, Int.sign_eq_one_iff_pos] at hsign
      omega
    · intro X hX Y hY Z hZ ha
      obtain ⟨hxy, hyz, hzx⟩ := hk.of_around ha
      have hxz := h.trans X hX Y hY Z hZ hxy.le hyz.le
      have hsign := h.antisymm X hX Z hZ
      rw [Int.sign_eq_neg_one_of_neg hzx, neg_neg, Int.sign_eq_one_iff_pos] at hsign
      omega
  · intro hp
    obtain ⟨hname, hwrong, haround⟩ := hp
    -- two lists are the same or one is below the other one
    have hpair : ∀ X ∈ S, ∀ Y ∈ S, (X = Y ∧ lexCompare c X Y = 0) ∨ Below c X Y ∨ Below c Y X := by
      intro X hX Y hY
      rcases hk.cases_pair X Y with h | h | h | h | h
      · exact .inl ⟨hname X hX Y hY h, hk.eq_zero_of_forall₂ h⟩
      · exact absurd h (hwrong X hX Y hY)
      · exact absurd h (hwrong Y hY X hX)
      · exact .inr (.inl h)
      · exact .inr (.inr h.symm)
    have hself : ∀ X, lexCompare c X X = 0 := fun X =>
      hk.eq_zero_of_forall₂ (List.forall₂_same.2 fun x _ => .inl rfl)
    refine ⟨?_, ?_, ?_⟩
    · intro X hX Y hY
      constructor
      · intro h0
        rcases hpair X hX Y hY with ⟨heq, -⟩ | h | h
        · exact heq
        · exact absurd h.1 (by omega)
        · exact absurd h.2 (by omega)
      · rintro rfl
        exact hself X
    · intro X hX Y hY
      rcases hpair X hX Y hY with ⟨rfl, h0⟩ | h | h
      · rw [h0]
        rfl
      · rw [Int.sign_eq_neg_one_of_neg h.1, Int.sign_eq_one_of_pos h.2]
      · rw [Int.sign_eq_neg_one_of_neg h.1, Int.sign_eq_one_of_pos h.2, neg_neg]
    · intro X hX Y hY Z hZ hxy hyz
      by_contra hxz
      rcases hpair X hX Y hY with ⟨rfl, -⟩ | h1 | h1
      · exact hxz hyz
      · rcases hpair Y hY Z hZ with ⟨rfl, -⟩ | h2 | h2
        · exact hxz hxy
        · rcases hpair X hX Z hZ with ⟨-, h0⟩ | h3 | h3
          · exact hxz h0.le
          · exact hxz h3.1.le
          · rcases hk.around_of_cycle h1 h2 h3 with ha | ha | ha
            · exact haround X hX Y hY Z hZ ha
            · exact haround Y hY Z hZ X hX ha
            · exact haround Z hZ X hX Y hY ha
        · exact absurd h2.2 (not_lt.2 hyz)
      · exact absurd h1.2 (not_lt.2 hxy)

end Keys

end

end LexCompare
