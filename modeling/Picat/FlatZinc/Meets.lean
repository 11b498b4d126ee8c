import Picat.FlatZinc.Terms

/-!
# Loops over FlatZinc arrays

Arrays are lists here, and an index out of the bounds of an array raises an error.

* `fzn1dTo2d` : a flat array put into a matrix; `exists_fzn1dTo2d` : the cells.
-/

namespace Picat.FlatZinc

open Function List

/-- `failed` : the call fails; `loops` : it does not return. -/
inductive PostError
  | failed | indexOutOfBound | loops
deriving DecidableEq

variable {cs : List ℤ} {i : ℕ}

section
variable {ι : Type}

/-- The expression for the places `I..N`. -/
def vectorSumFrom (cs : List ℤ) (xs : List (Arg ι)) (i n : ℕ) : Except PostError (Exp ι) :=
  match h : cs[i - 1]?, xs[i - 1]? with
  | some c, some x =>
    if i = n then .ok (.mul (.arg (.int c)) (.arg x))
    else (vectorSumFrom cs xs (i + 1) n).map (.add (.mul (.arg (.int c)) (.arg x)))
  | _, _ => .error .indexOutOfBound
termination_by cs.length + 1 - i
decreasing_by
  have := (List.getElem?_eq_some_iff.1 h).1
  omega

def vectorSum (cs : List ℤ) (xs : List (Arg ι)) : Except PostError (Exp ι) :=
  if xs.length = cs.length then vectorSumFrom cs xs 1 cs.length else .error .failed

/-- The tuples from `VecT[I]` on; with tuples of no elements the index does not advance. -/
def transformTable (vecT : List ℤ) (n i : ℕ) : Except PostError (List (List ℤ)) :=
  if vecT.length < i then .ok []
  else if n = 0 then .error .loops
  else match (List.range' i n).mapM fun j => vecT[j - 1]? with
    | some tuple => (transformTable vecT n (i + n)).map (tuple :: ·)
    | none => .error .indexOutOfBound
termination_by vecT.length + 1 - i

/-- `M[I,J] = …`. -/
def setCell (m : ℕ → ℕ → Option Elem) (i j : ℕ) (e : Elem) : ℕ → ℕ → Option Elem :=
  update m i (update (m i) j (some e))

/-- The elements of `D` from `Id` on go to `M[I,J]` and the cells after it; `M` has `nRows` rows. -/
def fzn1dTo2d (nRows i j nCols : ℕ) (d : List Elem) (id : ℕ) (m : ℕ → ℕ → Option Elem) :
    Except PostError (ℕ → ℕ → Option Elem) :=
  if d.length < id then .ok m
  else if nCols < j then
    -- with no columns the first two clauses take turns
    if nCols = 0 then .error .loops else fzn1dTo2d nRows (i + 1) 1 nCols d id m
  else match d[id - 1]? with
    | some e =>
      if nRows < i then .error .indexOutOfBound
      else fzn1dTo2d nRows i (j + 1) nCols d (id + 1) (setCell m i j e)
    | none => .error .indexOutOfBound
termination_by (d.length + 1 - id, if nCols < j then 1 else 0)
decreasing_by
  · rw [if_neg (by omega), if_pos (by omega)]
    exact Prod.Lex.right _ Nat.one_pos
  · exact Prod.Lex.left _ _ (by omega)

/-! ## Linear sums -/

section
variable {xs : List (Arg ι)}

theorem linear_drop (σ : ι → ℤ) (hc : i < cs.length) (hx : i < xs.length) :
    linear σ (cs.drop i) (xs.drop i) = cs[i] * xs[i].val σ + linear σ (cs.drop (i + 1)) (xs.drop (i + 1)) := by
  unfold linear
  rw [drop_eq_getElem_cons hc, drop_eq_getElem_cons hx, zipWith_cons_cons, sum_cons]

theorem exists_vectorSumFrom (hlen : xs.length = cs.length) (h1 : 1 ≤ i)
    (hi : i ≤ cs.length) : ∃ e, vectorSumFrom cs xs i cs.length = .ok e ∧ e.kind = some .arith ∧
      ∀ σ : ι → ℤ, e.eval σ = some (linear σ (cs.drop (i - 1)) (xs.drop (i - 1))) := by
  have hc : i - 1 < cs.length := by omega
  have hx : i - 1 < xs.length := by omega
  have hsucc : i - 1 + 1 = i := by omega
  induction hk : cs.length - i generalizing i with
  | zero =>
    have hn : i = cs.length := by omega
    refine ⟨.mul (.arg (.int cs[i - 1])) (.arg xs[i - 1]), ?_, rfl, ?_⟩
    · rw [vectorSumFrom, List.getElem?_eq_getElem hc, List.getElem?_eq_getElem hx]
      exact if_pos hn
    · intro σ
      rw [linear_drop σ hc hx, drop_of_length_le (by omega), drop_of_length_le (by omega)]
      exact congrArg some (add_zero _).symm
  | succ k ih =>
    obtain ⟨e, he, hkind, heval⟩ := @ih (i + 1) (by omega) (by omega) (by omega) (by omega) (by omega) (by omega)
    refine ⟨.add (.mul (.arg (.int cs[i - 1])) (.arg xs[i - 1])) e, ?_, ?_, ?_⟩
    · rw [vectorSumFrom, List.getElem?_eq_getElem hc, List.getElem?_eq_getElem hx]
      dsimp only
      rw [if_neg (by omega), he]
      rfl
    · unfold Exp.kind
      rw [hkind]
      rfl
    · intro σ
      rw [linear_drop σ hc hx, hsucc]
      unfold Exp.eval
      rw [heval σ, Nat.add_sub_cancel]
      rfl

theorem exists_vectorSum (hlen : cs.length = xs.length) (hne : cs ≠ []) :
    ∃ e, vectorSum cs xs = .ok e ∧ e.kind = some .arith ∧ ∀ σ : ι → ℤ, e.eval σ = some (linear σ cs xs) := by
  have hpos := length_pos_iff.2 hne
  unfold vectorSum
  rw [if_pos hlen.symm]
  exact exists_vectorSumFrom hlen.symm (le_refl 1) hpos

theorem vectorSum_nil (hlen : ([] : List ℤ).length = xs.length) : vectorSum [] xs = .error .indexOutOfBound := by
  unfold vectorSum
  rw [if_pos hlen.symm, vectorSumFrom]
  rfl

end

theorem mapM_getElem {l : List ℤ} {n : ℕ} (h : i + n ≤ l.length) :
    (List.range' (i + 1) n).mapM (fun j => l[j - 1]?) = some ((l.drop i).take n) := by
  induction n generalizing i with
  | zero => rfl
  | succ n ih =>
    rw [List.range'_succ, mapM_cons, ih (by omega), Nat.add_sub_cancel, List.getElem?_eq_getElem (by omega),
      drop_eq_getElem_cons (by omega : i < l.length), take_succ_cons]
    rfl

theorem exists_transformTable {vecT : List ℤ} {n rows k : ℕ} (hn : n ≠ 0) (hlen : vecT.length = n * rows)
    (hk : k ≤ rows) : ∃ tuples, transformTable vecT n (n * k + 1) = .ok tuples ∧
      ∀ tuple, tuple ∈ tuples ↔ ∃ row, k ≤ row ∧ row < rows ∧ tuple = (vecT.drop (n * row)).take n := by
  induction hd : rows - k generalizing k with
  | zero =>
    have : k = rows := by omega
    subst this
    refine ⟨[], ?_, ?_⟩
    · rw [transformTable, if_pos (by omega)]
    · intro tuple
      constructor
      · intro h
        exact absurd h not_mem_nil
      · intro hp
        obtain ⟨row, h1, h2, _⟩ := hp
        omega
  | succ d ih =>
    obtain ⟨tuples, ht, hmem⟩ := @ih (k + 1) (by omega) (by omega)
    have hrow : n * k + n ≤ vecT.length := by
      have := Nat.mul_le_mul_left n (show k + 1 ≤ rows by omega)
      rw [Nat.mul_succ] at this
      omega
    refine ⟨(vecT.drop (n * k)).take n :: tuples, ?_, ?_⟩
    · rw [transformTable, if_neg (by omega), if_neg hn, mapM_getElem hrow]
      dsimp only
      rw [show n * k + 1 + n = n * (k + 1) + 1 by rw [Nat.mul_succ]; omega, ht]
      rfl
    · intro tuple
      rw [mem_cons, hmem]
      constructor
      · rintro (rfl | ⟨row, h1, h2, h3⟩)
        · exact ⟨k, le_refl k, by omega, rfl⟩
        · exact ⟨row, by omega, h2, h3⟩
      · intro hp
        obtain ⟨row, h1, h2, h3⟩ := hp
        rcases Nat.eq_or_lt_of_le h1 with rfl | hlt
        · exact .inl h3
        · exact .inr ⟨row, hlt, h2, h3⟩

/-! ## Matrices -/

theorem cell_inj {s a b j : ℕ} (ha : 1 ≤ a) (hb : 1 ≤ b) (hbs : b ≤ s) (hi : 1 ≤ i) (hj : 1 ≤ j) (hjs : j ≤ s)
    (h : (a - 1) * s + b = (i - 1) * s + j) : a = i ∧ b = j := by
  have hlt : ∀ c d e f : ℕ, c < d → e ≤ s → 1 ≤ f → c * s + e < d * s + f := by
    intro c d e f hcd he hf
    have := Nat.mul_le_mul_right s (show c + 1 ≤ d by omega)
    rw [Nat.succ_mul] at this
    omega
  rcases lt_trichotomy (a - 1) (i - 1) with hai | hai | hai
  · have := hlt _ _ b j hai hbs hj
    omega
  · rw [hai] at h
    omega
  · have := hlt _ _ j b hai hjs hb
    omega

theorem setCell_self (m : ℕ → ℕ → Option Elem) (i j : ℕ) (e : Elem) : setCell m i j e i j = some e := by
  unfold setCell
  rw [update_self, update_self]

theorem setCell_of_ne {m : ℕ → ℕ → Option Elem} {j a b : ℕ} {e : Elem} (h : ¬ (a = i ∧ b = j)) :
    setCell m i j e a b = m a b := by
  unfold setCell
  by_cases ha : a = i
  · subst ha
    rw [update_self, update_of_ne fun hb => h ⟨rfl, hb⟩]
  · rw [update_of_ne ha]

/-- The element at `Id` belongs to the cell that is next; the cells before it have their elements. -/
theorem exists_fzn1dTo2d {q s i j id : ℕ} {d : List Elem} {m : ℕ → ℕ → Option Elem} (hlen : d.length = q * s)
    (hi : 1 ≤ i) (hj : 1 ≤ j) (hjs : j ≤ s + 1) (hid : id = (i - 1) * s + j) :
    ∃ m', fzn1dTo2d q i j s d id m = .ok m' ∧ ∀ a b, 1 ≤ a → a ≤ q → 1 ≤ b → b ≤ s →
      m' a b = if id ≤ (a - 1) * s + b then d[(a - 1) * s + b - 1]? else m a b := by
  induction i, j, id, m using fzn1dTo2d.induct q s d with
  | case1 i j id m hdone =>
    refine ⟨m, by rw [fzn1dTo2d, if_pos hdone], fun a b _ haq _ hbs => ?_⟩
    have := Nat.mul_le_mul_right s (show a - 1 + 1 ≤ q by omega)
    rw [Nat.succ_mul] at this
    rw [if_neg (by omega)]
  | case2 i j id m hrest hover hzero =>
    rw [hzero, Nat.mul_zero] at hlen
    omega
  | case3 i j id m hrest hover hzero ih =>
    have hrow : (i - 1) * s + s = i * s := by rw [← Nat.succ_mul, Nat.succ_eq_add_one, Nat.sub_add_cancel hi]
    rw [fzn1dTo2d, if_neg hrest, if_pos hover, if_neg hzero]
    exact ih (by omega) (le_refl 1) (by omega) (by rw [Nat.add_sub_cancel]; omega)
  | case4 i j id m hrest hover e he hrows =>
    have := Nat.mul_le_mul_right s (show q ≤ i - 1 by omega)
    omega
  | case5 i j id m hrest hover e he hrows ih =>
    obtain ⟨m', hm', hcells⟩ := ih hi (by omega) (by omega) (by omega)
    refine ⟨m', ?_, fun a b ha haq hb hbs => ?_⟩
    · rw [fzn1dTo2d, if_neg hrest, if_neg hover, he]
      dsimp only
      rw [if_neg hrows, hm']
    · rw [hcells a b ha haq hb hbs]
      by_cases hhere : a = i ∧ b = j
      · obtain ⟨rfl, rfl⟩ := hhere
        rw [if_neg (by omega), if_pos (by omega), setCell_self, ← hid, he]
      · have : (a - 1) * s + b ≠ id := fun h =>
          hhere (cell_inj ha hb hbs hi hj (by omega) (h.trans hid))
        rw [setCell_of_ne hhere]
        by_cases hle : id ≤ (a - 1) * s + b
        · rw [if_pos hle, if_pos (by omega)]
        · rw [if_neg hle, if_neg (by omega)]
  | case6 i j id m hrest hover hnone =>
    rw [List.getElem?_eq_none_iff] at hnone
    omega

end

section
variable {ι : Type}

/-- `NF`, or `NDom`. -/
def SetTerm.dom : SetTerm → List ℤ
  | .range l u => interval l u
  | .braces dom => dom

/-! ## The clauses of `post` -/

def postElement (i : Arg ι) (array : List (Arg ι)) (e : Arg ι) : Except PostError (Goal ι) := .ok (.element i array e)

/-- `Z Rel Exp`. -/
def postFun (z : Arg ι) (e : Exp ι) : Except PostError (Goal ι) := .ok (.constr (.rel .eq (.arg z) e))

def postRel (r : Rel) (x y : Arg ι) : Except PostError (Goal ι) := .ok (.constr (.rel r (.arg x) (.arg y)))

/-- `B #<=> …`. -/
def postReif (b : Arg ι) (e : Exp ι) : Except PostError (Goal ι) := .ok (.constr (.iff (.arg b) e))

def postLin (r : Rel) (cs : List ℤ) (xs : List (Arg ι)) (rhs : Arg ι) : Except PostError (Goal ι) := do
  let cxs ← vectorSum cs xs
  return .constr (.rel r cxs (.arg rhs))

def postLinReif (r : Rel) (cs : List ℤ) (xs : List (Arg ι)) (rhs b : Arg ι) : Except PostError (Goal ι) := do
  let cxs ← vectorSum cs xs
  postReif b (.rel r cxs (.arg rhs))

def postCount (r : Rel) (vec : List (Arg ι)) (v n : Arg ι) : Except PostError (Goal ι) := .ok (.count v vec r n)

def postRegular (xs : List (Arg ι)) (q s : ℕ) (d : List Elem) (q0 : ℕ) (f : SetTerm) : Except PostError (Goal ι) := do
  let m ← fzn1dTo2d q 1 1 s d 1 fun _ _ => none
  return .regular xs q s m q0 f.dom

def postTable (vecV : List (Arg ι)) (vecT : List ℤ) : Except PostError (Goal ι) := do
  let tupleT ← transformTable vecT vecV.length 1
  return .tableIn vecV tupleT

/-- `L11`, the elements or, when there are none, `z`. -/
def orElse (l1 : List (Arg ι)) (z : ℤ) : List (Arg ι) := if l1.isEmpty then [.int z] else l1

/-- `X :: 0..1`. -/
def bool01 (x : Arg ι) : Goal ι := .constr (.dom x (interval 0 1))

def post : Fzn ι → Except PostError (Goal ι)
  | .setIn x s => .ok (.constr (.dom x s.dom))
  | .setInReif x s b => postReif b (.dom x s.dom)
  | .arrayBoolAnd as b => .ok (.conj (bool01 b) (.constr (.rel .eq (.arg b) (.minL (orElse as 1)))))
  | .arrayBoolOr as b => .ok (.conj (bool01 b) (.constr (.rel .eq (.arg b) (.maxL (orElse as 0)))))
  | .arrayBoolXor as => .ok (.constr (.rel .eq (.mod (.sumL (orElse as 0)) (.arg (.int 2))) (.arg (.int 1))))
  | .arrayBoolElement i as e => postElement i as e
  | .arrayIntElement i as e => postElement i as e
  | .arrayVarBoolElement i as e => postElement i as e
  | .arrayVarIntElement i as e => postElement i as e
  | .bool2int x y => .ok (.conj (.unify x y) (bool01 y))
  | .boolAnd x y z => .ok (.constr (.rel .eq (.arg z) (.and (.arg x) (.arg y))))
  | .boolClause ps ns =>
    .ok (.fresh fun b1 => .fresh fun b2 =>
      .conj (bool01 b1) (.conj (bool01 b2) (.conj (.constr (.rel .eq (.arg b1) (.maxL (orElse ps 0))))
        (.conj (.constr (.rel .eq (.arg b2) (.minL (orElse ns 1)))) (.constr (.rel .ge (.arg b1) (.arg b2)))))))
  | .boolEq x y => .ok (.unify x y)
  | .boolEqReif x y b => postReif b (.iff (.arg x) (.arg y))
  | .boolLe x y => .ok (.constr (.imp (.arg x) (.arg y)))
  | .boolLeReif x y b => postReif b (.imp (.arg x) (.arg y))
  | .boolLt x y => postRel .lt x y
  | .boolLtReif x y b => postReif b (.rel .lt (.arg x) (.arg y))
  | .boolNot x y => .ok (.constr (.iff (.arg y) (.not (.arg x))))
  | .boolOr x y z => postReif z (.or (.arg x) (.arg y))
  | .boolXor x y z => postReif z (.xor (.arg x) (.arg y))
  | .intNegate x z => postFun z (.neg (.arg x))
  | .intPlus x y z => postFun z (.add (.arg x) (.arg y))
  | .intMinus x y z => postFun z (.sub (.arg x) (.arg y))
  | .intTimes x y z => postFun z (.mul (.arg x) (.arg y))
  | .intAbs x z => postFun z (.abs (.arg x))
  | .intDiv dividend divisor quotient => postFun quotient (.quot (.arg dividend) (.arg divisor))
  | .intMod dividend divisor remainder => postFun remainder (.mod (.arg dividend) (.arg divisor))
  | .intMin x y z => postFun z (.min2 (.arg x) (.arg y))
  | .intMax x y z => postFun z (.max2 (.arg x) (.arg y))
  | .intEq x y => .ok (.unify x y)
  | .intNe x y => postRel .ne x y
  | .intLe x y => postRel .le x y
  | .intLt x y => postRel .lt x y
  | .intGe x y => postRel .ge x y
  | .intGt x y => postRel .gt x y
  | .intEqReif x y b => postReif b (.rel .eq (.arg x) (.arg y))
  | .intNeReif x y b => postReif b (.rel .ne (.arg x) (.arg y))
  | .intLeReif x y b => postReif b (.rel .ge (.arg y) (.arg x))
  | .intLtReif x y b => postReif b (.rel .lt (.arg x) (.arg y))
  | .intGeReif x y b => postReif b (.rel .ge (.arg x) (.arg y))
  | .intGtReif x y b => postReif b (.rel .gt (.arg x) (.arg y))
  | .intLinEq cs xs rhs => postLin .eq cs xs rhs
  | .intLinNe cs xs rhs => postLin .ne cs xs rhs
  | .intLinLe cs xs rhs => postLin .le cs xs rhs
  | .intLinGe cs xs rhs => postLin .ge cs xs rhs
  | .intLinLt cs xs rhs => postLin .lt cs xs rhs
  | .intLinGt cs xs rhs => postLin .gt cs xs rhs
  | .boolLinEq cs xs rhs => postLin .eq cs xs rhs
  | .boolLinLe cs xs rhs => postLin .le cs xs rhs
  | .intLinEqReif cs xs rhs b => postLinReif .eq cs xs rhs b
  | .intLinNeReif cs xs rhs b => postLinReif .ne cs xs rhs b
  | .intLinLeReif cs xs rhs b => postLinReif .le cs xs rhs b
  | .intLinGeReif cs xs rhs b => postLinReif .ge cs xs rhs b
  | .intLinLtReif cs xs rhs b => postLinReif .lt cs xs rhs b
  | .intLinGtReif cs xs rhs b => postLinReif .gt cs xs rhs b
  | .allDifferent vec => .ok (.allDistinct vec)
  | .alldifferent vec => .ok (.allDistinct vec)
  | .allDifferentInt vec => .ok (.allDistinct vec)
  | .alldifferentExcept0 vec => .ok (.allDifferentExcept0 vec)
  | .inverse vec1 vec2 => .ok (.assignment vec1 vec2)
  | .countReif vec v n b =>
    -- `#/\` binds tighter than `#<=>`
    .ok (.fresh fun ni => .conj (.constr (.dom ni (interval 0 vec.length)))
      (.constr (.iff (.and (.count v vec .eq ni) (.arg b)) (.rel .eq (.arg n) (.arg ni)))))
  | .count vec v n => postCount .eq vec v n
  | .countEq vec v n => postCount .eq vec v n
  | .countGeq vec v n => postCount .le vec v n
  | .countGt vec v n => postCount .lt vec v n
  | .countLeq vec v n => postCount .ge vec v n
  | .countLt vec v n => postCount .gt vec v n
  | .countNeq vec v n => postCount .ne vec v n
  | .element i vec y => postElement i vec y
  | .elementInt i vec y => postElement i vec y
  | .elementBool i vec y => postElement i vec y
  | .maximum x vec => postFun x (.maxL vec)
  | .maximumInt x vec => postFun x (.maxL vec)
  | .minimum x vec => postFun x (.minL vec)
  | .minimumInt x vec => postFun x (.minL vec)
  | .regularNfa xs q s d q0 f => postRegular xs q s d q0 f
  | .regular xs q s d q0 f => postRegular xs q s d q0 f
  | .table vecV vecT => postTable vecV vecT
  | .tableInt vecV vecT => postTable vecV vecT
  | .tableBool vecV vecT => postTable vecV vecT
  | .lexLess vec1 vec2 => .ok (.lexLt vec1 vec2)
  | .lexLesseq vec1 vec2 => .ok (.lexLe vec1 vec2)
  | .lexLesseqInt vec1 vec2 => .ok (.lexLe vec1 vec2)
  | .lexLesseqBool vec1 vec2 => .ok (.lexLe vec1 vec2)
  | .lexLessInt vec1 vec2 => .ok (.lexLt vec1 vec2)
  | .lexLessBool vec1 vec2 => .ok (.lexLt vec1 vec2)

end

end Picat.FlatZinc

/-! # Families of posted constraints -/

namespace Picat.FlatZinc

open List

section
variable {ι : Type} {σ : ι → ℤ} {p : Prop} {x y z b v n : Arg ι} {xs ys : List (Arg ι)} {e a a' : Exp ι} {w : ℤ}

/-- The call posts a documented constraint, which holds just when `p` does. -/
def Meets (σ : ι → ℤ) (r : Except PostError (Goal ι)) (p : Prop) : Prop :=
  ∃ g, r = .ok g ∧ g.Documented ∧ (g.Holds σ ↔ p)

theorem meets_ok {g : Goal ι} : Meets σ (.ok g) p ↔ g.Documented ∧ (g.Holds σ ↔ p) := by
  unfold Meets
  constructor
  · intro hp
    obtain ⟨_, hg, h⟩ := hp
    cases hg
    exact h
  · intro h
    exact ⟨g, rfl, h⟩

theorem not_meets_error {err : PostError} : ¬ Meets σ (.error err) p := by
  intro h
  obtain ⟨_, hg, _⟩ := h
  cases hg

/-! ## Expressions -/

theorem truth_eq_one [Decidable p] : truth p = 1 ↔ p := by
  unfold truth
  split_ifs with h
  · exact iff_of_true rfl h
  · exact iff_of_false (by decide) h

theorem truth_eq_iff [Decidable p] (hw : w = 0 ∨ w = 1) : truth p = w ↔ (w = 1 ↔ p) := by
  unfold truth
  split_ifs with h
  · exact ⟨fun hw1 => iff_of_true hw1.symm h, fun hp => (hp.2 h).symm⟩
  · refine ⟨fun hw0 => iff_of_false (by omega) h, fun hp => ?_⟩
    exact (hw.resolve_right fun hw1 => h (hp.1 hw1)).symm

theorem some_eq_some_iff {u : ℤ} : some u = some w ↔ w = u := by
  rw [Option.some.injEq, eq_comm]

theorem lift2_eq_some {f : ℤ → ℤ → Option ℤ} {o o' : Option ℤ} :
    lift2 f o o' = some w ↔ ∃ u u', o = some u ∧ o' = some u' ∧ f u u' = some w := by
  unfold lift2
  rw [Option.bind_eq_some_iff]
  constructor
  · intro hp
    obtain ⟨u, hu, h⟩ := hp
    obtain ⟨u', hu', hf⟩ := Option.bind_eq_some_iff.1 h
    exact ⟨u, u', hu, hu', hf⟩
  · intro hp
    obtain ⟨u, u', hu, hu', hf⟩ := hp
    exact ⟨u, hu, Option.bind_eq_some_iff.2 ⟨u', hu', hf⟩⟩

theorem holds_rel {r : Rel} :
    (Goal.constr (.rel r a a')).Holds σ ↔ ∃ u u', a.eval σ = some u ∧ a'.eval σ = some u' ∧ r.Holds u u' := by
  change lift2 (fun u u' => some (truth (r.Holds u u'))) (a.eval σ) (a'.eval σ) = some 1 ↔ _
  rw [lift2_eq_some]
  simp only [Option.some.injEq, truth_eq_one]

theorem holds_fun : (Goal.constr (.rel .eq (.arg z) e)).Holds σ ↔ e.eval σ = some (z.val σ) := by
  rw [holds_rel]
  constructor
  · intro hp
    obtain ⟨u, u', hu, hu', rfl⟩ := hp
    cases hu
    exact hu'
  · intro h
    exact ⟨_, _, rfl, h, rfl⟩

theorem holds_bool01 : (bool01 x).Holds σ ↔ x.val σ = 0 ∨ x.val σ = 1 := by
  unfold bool01 Goal.Holds Exp.eval
  rw [Option.some.injEq, truth_eq_one, mem_interval]
  omega

/-! ## Single constraints -/

theorem meets_fun (hkind : e.kind.isSome) (hp : e.eval σ = some (z.val σ) ↔ p) : Meets σ (postFun z e) p := by
  refine meets_ok.2 ⟨?_, holds_fun.trans hp⟩
  obtain ⟨k, hk⟩ := Option.isSome_iff_exists.1 hkind
  unfold Goal.Documented Exp.kind
  rw [hk]
  rfl

theorem meets_constr (hkind : e.kind = some .constr) (heval : e.eval σ = some w) (hp : w = 1 ↔ p) :
    Meets σ (.ok (.constr e)) p := by
  refine meets_ok.2 ⟨hkind, ?_⟩
  unfold Goal.Holds
  rw [heval, Option.some.injEq, hp]

theorem meets_rel {r : Rel} (hp : r.Holds (x.val σ) (y.val σ) ↔ p) : Meets σ (postRel r x y) p := by
  refine meets_ok.2 ⟨rfl, holds_rel.trans (Iff.trans ?_ hp)⟩
  constructor
  · intro hboth
    obtain ⟨u, u', hu, hu', h⟩ := hboth
    cases hu
    cases hu'
    exact h
  · intro h
    exact ⟨_, _, rfl, rfl, h⟩

theorem meets_reif (hkind : boolConstr e.kind = some .constr) (heval : e.eval σ = some w) (hp : w = 1 ↔ p) :
    Meets σ (postReif b e) (b.True σ ↔ p) := by
  refine meets_ok.2 ⟨?_, ?_⟩
  · unfold Goal.Documented Exp.kind
    rw [hkind]
    rfl
  · unfold Goal.Holds Exp.eval
    rw [heval, ← hp]
    change some (truth _) = some 1 ↔ _
    rw [Option.some.injEq, truth_eq_one]
    rfl

theorem meets_reif_rel {r : Rel} (hp : r.Holds (x.val σ) (y.val σ) ↔ p) :
    Meets σ (postReif b (.rel r (.arg x) (.arg y))) (b.True σ ↔ p) :=
  meets_reif rfl rfl (truth_eq_one.trans hp)

theorem meets_element : Meets σ (postElement x xs y) (elementHolds σ x xs y) := meets_ok.2 ⟨trivial, Iff.rfl⟩

theorem meets_different : Meets σ (.ok (.allDistinct xs)) (differentHolds σ xs) := meets_ok.2 ⟨trivial, Iff.rfl⟩

theorem mem_dom {s : SetTerm} : w ∈ s.dom ↔ s.Mem w := by
  cases s with
  | range l u => exact mem_interval
  | braces dom => rfl

section
variable {cs : List ℤ} {rhs : Arg ι} {r : Rel}

section
variable (hlen : cs.length = xs.length) (hp : r.Holds (linear σ cs xs) (rhs.val σ) ↔ p)
include hlen hp

theorem meets_lin_iff : Meets σ (postLin r cs xs rhs) p ↔ cs ≠ [] := by
  unfold postLin
  by_cases hne : cs = []
  · subst hne
    rw [vectorSum_nil hlen]
    exact iff_of_false not_meets_error fun h => h rfl
  · obtain ⟨e, he, hkind, heval⟩ := exists_vectorSum hlen hne
    rw [he]
    refine iff_of_true (meets_ok.2 ⟨?_, holds_rel.trans (Iff.trans ?_ hp)⟩) hne
    · unfold Goal.Documented Exp.kind
      rw [hkind]
      rfl
    · rw [heval σ]
      constructor
      · intro hboth
        obtain ⟨u, u', hu, hu', h⟩ := hboth
        cases hu
        cases hu'
        exact h
      · intro h
        exact ⟨_, _, rfl, rfl, h⟩

theorem meets_linReif_iff : Meets σ (postLinReif r cs xs rhs b) (b.True σ ↔ p) ↔ cs ≠ [] := by
  unfold postLinReif
  by_cases hne : cs = []
  · subst hne
    rw [vectorSum_nil hlen]
    exact iff_of_false not_meets_error fun h => h rfl
  · obtain ⟨e, he, hkind, heval⟩ := exists_vectorSum hlen hne
    rw [he]
    refine iff_of_true (meets_reif ?_ ?_ (truth_eq_one.trans hp)) hne
    · unfold Exp.kind
      rw [hkind]
      rfl
    · unfold Exp.eval
      rw [heval σ]
      rfl

end

end

/-! ## Boolean arrays -/

section
variable {as ps ns : List (Arg ι)}

def BoolArray (σ : ι → ℤ) (as : List (Arg ι)) : Prop := ∀ x ∈ as, x.val σ = 0 ∨ x.val σ = 1

theorem vals_orElse_ne_nil : vals σ (orElse as w) ≠ [] := by
  unfold orElse vals
  split_ifs with h
  · exact cons_ne_nil _ _
  · intro h0
    exact h (isEmpty_iff.2 (map_eq_nil_iff.1 h0))

section
variable (has : BoolArray σ as) (hw : w = 0 ∨ w = 1)
include has hw

theorem bits_orElse : BoolSums.Bits (vals σ (orElse as w)) := by
  intro u hu
  obtain ⟨x, hx, rfl⟩ := mem_map.1 hu
  unfold orElse at hx
  split_ifs at hx
  · rw [mem_singleton.1 hx]
    exact hw
  · exact has x hx

theorem minL_orElse : (Exp.minL (orElse as 1)).eval σ = some w ↔ (w = 1 ↔ ∀ a ∈ as, a.True σ) := by
  have hall : (∀ u ∈ vals σ (orElse as 1), u = 1) ↔ ∀ a ∈ as, a.True σ := by
    unfold vals
    rw [forall_mem_map]
    unfold orElse
    split_ifs with h
    · rw [isEmpty_iff.1 h]
      exact iff_of_true (fun x hx => by rw [mem_singleton.1 hx]; rfl) (fun a ha => absurd ha not_mem_nil)
    · rfl
  rw [← hall]
  exact BoolSums.min?_eq_some_iff vals_orElse_ne_nil (bits_orElse has (.inr rfl)) hw

theorem maxL_orElse : (Exp.maxL (orElse as 0)).eval σ = some w ↔ (w = 1 ↔ ∃ a ∈ as, a.True σ) := by
  have hex : (∃ u ∈ vals σ (orElse as 0), u = 1) ↔ ∃ a ∈ as, a.True σ := by
    unfold vals
    simp only [mem_map, exists_exists_and_eq_and]
    unfold orElse
    split_ifs with h
    · rw [isEmpty_iff.1 h]
      refine iff_of_false ?_ ?_
      · intro hp
        obtain ⟨x, hx, h1⟩ := hp
        rw [mem_singleton.1 hx] at h1
        exact absurd h1 (by decide : (0 : ℤ) ≠ 1)
      · intro hp
        obtain ⟨a, ha, _⟩ := hp
        exact not_mem_nil ha
    · rfl
  rw [← hex]
  exact BoolSums.max?_eq_some_iff vals_orElse_ne_nil (bits_orElse has (.inl rfl)) hw

end

theorem meets_arrayBool (hb : b.val σ = 0 ∨ b.val σ = 1) (hkind : e.kind.isSome)
    (hp : e.eval σ = some (b.val σ) ↔ (b.val σ = 1 ↔ p)) :
    Meets σ (.ok (.conj (bool01 b) (.constr (.rel .eq (.arg b) e)))) (b.True σ ↔ p) := by
  obtain ⟨g, hg, hdoc, hholds⟩ := meets_fun hkind hp
  cases hg
  refine meets_ok.2 ⟨⟨rfl, hdoc⟩, ?_⟩
  unfold Goal.Holds
  rw [hholds]
  exact and_iff_right (holds_bool01.2 hb)

theorem meets_arrayBoolXor (has : BoolArray σ as) :
    Meets σ (post (.arrayBoolXor as)) ((Fzn.arrayBoolXor as).Holds σ) := by
  refine meets_ok.2 ⟨rfl, holds_rel.trans ?_⟩
  have hsum : (vals σ (orElse as 0)).sum = (vals σ as).count 1 := by
    rw [← BoolSums.sum_eq_count fun u hu => ?_]
    · unfold orElse
      split_ifs with h
      · rw [isEmpty_iff.1 h]
        rfl
      · rfl
    · obtain ⟨x, hx, rfl⟩ := mem_map.1 hu
      exact has x hx
  have heval : (Exp.mod (.sumL (orElse as 0)) (.arg (.int 2))).eval σ =
      some ((vals σ as).count 1 - ((vals σ as).count 1 : ℤ).fdiv 2 * 2) := by
    unfold Exp.eval
    change (if (2 : ℤ) = 0 then none else some _) = _
    rw [if_neg (by decide), hsum]
    rfl
  unfold Fzn.Holds
  rw [heval, Int.fdiv_eq_ediv_of_nonneg _ (by decide)]
  constructor
  · intro hp
    obtain ⟨u, u', hu, hu', h⟩ := hp
    cases hu
    cases hu'
    have : ((vals σ as).count 1 : ℤ) - ((vals σ as).count 1 : ℤ) / 2 * 2 = 1 := h
    omega
  · intro h
    refine ⟨_, _, rfl, rfl, ?_⟩
    change ((vals σ as).count 1 : ℤ) - ((vals σ as).count 1 : ℤ) / 2 * 2 = 1
    omega

theorem meets_boolClause (hps : BoolArray σ ps) (hns : BoolArray σ ns) :
    Meets σ (post (.boolClause ps ns)) ((Fzn.boolClause ps ns).Holds σ) := by
  have hholds : ∀ b1 b2 : ℤ, (Goal.conj (bool01 (.int b1)) (.conj (bool01 (.int b2))
      (.conj (.constr (.rel .eq (.arg (.int b1)) (.maxL (orElse ps 0))))
        (.conj (.constr (.rel .eq (.arg (.int b2)) (.minL (orElse ns 1))))
          (.constr (.rel .ge (.arg (.int b1)) (.arg (.int b2)))))))).Holds σ ↔
      (b1 = 0 ∨ b1 = 1) ∧ (b2 = 0 ∨ b2 = 1) ∧ (Exp.maxL (orElse ps 0)).eval σ = some b1 ∧
        (Exp.minL (orElse ns 1)).eval σ = some b2 ∧ b1 ≥ b2 := by
    intro b1 b2
    obtain ⟨g, hg, -, hge⟩ := @meets_rel ι σ _ (.int b1) (.int b2) .ge Iff.rfl
    cases hg
    change (bool01 _).Holds σ ∧ (bool01 _).Holds σ ∧ (Goal.constr _).Holds σ ∧ (Goal.constr _).Holds σ ∧
      (Goal.constr _).Holds σ ↔ _
    rw [holds_bool01, holds_bool01, holds_fun, holds_fun, hge]
    rfl
  refine meets_ok.2 ⟨fun b1 b2 => ⟨rfl, rfl, rfl, rfl, rfl⟩, ?_⟩
  change (∃ b1 b2 : ℤ, (Goal.conj _ _).Holds σ) ↔ (∃ q ∈ ps, q.True σ) ∨ ∃ q ∈ ns, ¬ q.True σ
  simp only [hholds]
  constructor
  · intro hp
    obtain ⟨b1, b2, hb1, hb2, hmax, hmin, hge⟩ := hp
    have hps1 := (maxL_orElse hps hb1).1 hmax
    have hns1 := (minL_orElse hns hb2).1 hmin
    by_cases h1 : b1 = 1
    · exact .inl (hps1.1 h1)
    · right
      by_contra hnone
      push Not at hnone
      have := hns1.2 hnone
      omega
  · intro h
    have hb : ∀ q : Prop, ∃ w : ℤ, (w = 0 ∨ w = 1) ∧ (w = 1 ↔ q) := by
      intro q
      by_cases hq : q
      · exact ⟨1, .inr rfl, iff_of_true rfl hq⟩
      · exact ⟨0, .inl rfl, iff_of_false (by decide) hq⟩
    obtain ⟨b1, hb1, hps1⟩ := hb (∃ q ∈ ps, q.True σ)
    obtain ⟨b2, hb2, hns1⟩ := hb (∀ q ∈ ns, q.True σ)
    refine ⟨b1, b2, hb1, hb2, (maxL_orElse hps hb1).2 hps1, (minL_orElse hns hb2).2 hns1, ?_⟩
    rcases h with h | ⟨q, hq, hfalse⟩
    · have := hps1.2 h
      omega
    · have : b2 ≠ 1 := fun h1 => hfalse (hns1.1 h1 q hq)
      omega

end

end

end Picat.FlatZinc
