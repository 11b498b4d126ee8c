import Picat.Automaton.Regular

/-!
# Picat's constraints

The constraint language of the manual, with the meaning the manual gives it.

* `Goal` : the constraints that `post` calls; `Goal.Documented`, `Goal.Holds`.
-/

namespace Picat.FlatZinc
open Picat.Automaton

/-- An evaluated argument of a constraint: an integer (`false` is 0, `true` is 1) or a variable. -/
inductive Arg (ι : Type)
  | int (z : ℤ)
  | var (v : ι)
deriving DecidableEq

/-- A set, as `fzn_eval_expr` leaves it. -/
inductive SetTerm
  | range (l u : ℤ)
  | braces (dom : List ℤ)
deriving DecidableEq

inductive Elem
  | int (z : ℤ)
  | set (s : SetTerm)
deriving DecidableEq

inductive Rel
  | eq | ne | lt | le | gt | ge
deriving DecidableEq

/-- `rel r` is `X Rel Y`, `dom` is `X :: D`, `not` to `iff` are the Boolean constraints; `count` is the term
`count(V,List,Rel,N)` inside an expression. -/
inductive Exp (ι : Type)
  | arg (x : Arg ι)
  | neg (e : Exp ι)
  | add (a b : Exp ι)
  | sub (a b : Exp ι)
  | mul (a b : Exp ι)
  | quot (a b : Exp ι)
  | mod (a b : Exp ι)
  | abs (e : Exp ι)
  | min2 (a b : Exp ι)
  | max2 (a b : Exp ι)
  | minL (xs : List (Arg ι))
  | maxL (xs : List (Arg ι))
  | sumL (xs : List (Arg ι))
  | rel (r : Rel) (a b : Exp ι)
  | dom (x : Arg ι) (d : List ℤ)
  | not (a : Exp ι)
  | and (a b : Exp ι)
  | xor (a b : Exp ι)
  | or (a b : Exp ι)
  | imp (a b : Exp ι)
  | iff (a b : Exp ι)
  | count (v : Arg ι) (xs : List (Arg ι)) (r : Rel) (n : Arg ι)

/-- `fresh body` posts `body` on a new variable. -/
inductive Goal (ι : Type)
  | unify (x y : Arg ι)
  | constr (e : Exp ι)
  | element (i : Arg ι) (xs : List (Arg ι)) (v : Arg ι)
  | allDistinct (xs : List (Arg ι))
  | allDifferentExcept0 (xs : List (Arg ι))
  | assignment (xs ys : List (Arg ι))
  | count (v : Arg ι) (xs : List (Arg ι)) (r : Rel) (n : Arg ι)
  | tableIn (xs : List (Arg ι)) (tuples : List (List ℤ))
  | regular (xs : List (Arg ι)) (q s : ℕ) (m : ℕ → ℕ → Option Elem) (q0 : ℕ) (fs : List ℤ)
  | lexLt (xs ys : List (Arg ι))
  | lexLe (xs ys : List (Arg ι))
  | conj (g h : Goal ι)
  | fresh (body : Arg ι → Goal ι)

/-- `L..U`, as a list. -/
def interval (l u : ℤ) : List ℤ := (List.range (u + 1 - l).toNat).map fun k : ℕ => l + k

theorem mem_interval {l u z : ℤ} : z ∈ interval l u ↔ l ≤ z ∧ z ≤ u := by
  unfold interval
  rw [List.mem_map]
  constructor
  · intro h
    obtain ⟨k, hk, rfl⟩ := h
    rw [List.mem_range] at hk
    omega
  · intro h
    obtain ⟨hl, hu⟩ := h
    refine ⟨(z - l).toNat, ?_, by omega⟩
    rw [List.mem_range]
    omega

/-! ## Meaning -/

section
variable {ι : Type} (σ : ι → ℤ)

def Arg.val : Arg ι → ℤ
  | .int z => z
  | .var v => σ v

def vals (xs : List (Arg ι)) : List ℤ := xs.map (Arg.val σ)

def Rel.Holds : Rel → ℤ → ℤ → Prop
  | .eq, x, y => x = y
  | .ne, x, y => x ≠ y
  | .lt, x, y => x < y
  | .le, x, y => x ≤ y
  | .gt, x, y => x > y
  | .ge, x, y => x ≥ y

instance (r : Rel) (x y : ℤ) : Decidable (r.Holds x y) :=
  match r with
  | .eq => inferInstanceAs (Decidable (x = y))
  | .ne => inferInstanceAs (Decidable (x ≠ y))
  | .lt => inferInstanceAs (Decidable (x < y))
  | .le => inferInstanceAs (Decidable (x ≤ y))
  | .gt => inferInstanceAs (Decidable (x > y))
  | .ge => inferInstanceAs (Decidable (x ≥ y))

def truth (p : Prop) [Decidable p] : ℤ := if p then 1 else 0

def lift2 (f : ℤ → ℤ → Option ℤ) (a b : Option ℤ) : Option ℤ := a.bind fun x => b.bind fun y => f x y

/-- `//` truncates, `mod` is `X - floor(X div Y) * Y`; the term `count(V,List,Rel,N)` has no documented value. -/
def Exp.eval : Exp ι → Option ℤ
  | .arg x => some (x.val σ)
  | .neg e => e.eval.map fun x => -x
  | .add a b => lift2 (fun x y => some (x + y)) a.eval b.eval
  | .sub a b => lift2 (fun x y => some (x - y)) a.eval b.eval
  | .mul a b => lift2 (fun x y => some (x * y)) a.eval b.eval
  | .quot a b => lift2 (fun x y => if y = 0 then none else some (x.tdiv y)) a.eval b.eval
  | .mod a b => lift2 (fun x y => if y = 0 then none else some (x - x.fdiv y * y)) a.eval b.eval
  | .abs e => e.eval.map fun x => |x|
  | .min2 a b => lift2 (fun x y => some (min x y)) a.eval b.eval
  | .max2 a b => lift2 (fun x y => some (max x y)) a.eval b.eval
  | .minL xs => (vals σ xs).min?
  | .maxL xs => (vals σ xs).max?
  | .sumL xs => some (vals σ xs).sum
  | .rel r a b => lift2 (fun x y => some (truth (r.Holds x y))) a.eval b.eval
  | .dom x d => some (truth (x.val σ ∈ d))
  | .not a => a.eval.map fun x => truth (x = 0)
  | .and a b => lift2 (fun x y => some (truth (x = 1 ∧ y = 1))) a.eval b.eval
  | .xor a b => lift2 (fun x y => some (truth ((x = 1 ∧ y ≠ 1) ∨ (x ≠ 1 ∧ y = 1)))) a.eval b.eval
  | .or a b => lift2 (fun x y => some (truth (x = 1 ∨ y = 1))) a.eval b.eval
  | .imp a b => lift2 (fun x y => some (truth (x = 1 → y = 1))) a.eval b.eval
  | .iff a b => lift2 (fun x y => some (truth (x = 1 ↔ y = 1))) a.eval b.eval
  | .count .. => none

/-- The entry of a transition matrix; the error state stands in for what is none. -/
def matrixEntry : Option Elem → Entry
  | some (.int z) => .int z.toNat
  | _ => .int 0

/-- `assignment` and `count` are written as the manual defines them. -/
def Goal.Holds : Goal ι → Prop
  | .unify x y => x.val σ = y.val σ
  | .constr e => e.eval σ = some 1
  | .element i xs v => 1 ≤ i.val σ ∧ (vals σ xs)[(i.val σ).toNat - 1]? = some (v.val σ)
  | .allDistinct xs => (vals σ xs).Pairwise fun x y => x ≠ y
  | .allDifferentExcept0 xs => ((vals σ xs).filter fun x => x ≠ 0).Pairwise fun x y => x ≠ y
  | .assignment xs ys =>
    (∀ x ∈ vals σ xs, x ∈ interval 1 xs.length) ∧ (∀ y ∈ vals σ ys, y ∈ interval 1 xs.length) ∧
      ∀ i < xs.length, ∀ j < xs.length, ∃ x y, (vals σ xs)[i]? = some x ∧ (vals σ ys)[j]? = some y ∧
        (x = j + 1 ↔ y = i + 1)
  | .count v xs r n => r.Holds ((vals σ xs).map fun x => truth (v.val σ = x)).sum (n.val σ)
  | .tableIn xs tuples => vals σ xs ∈ tuples
  | .regular xs _ s m q0 fs =>
    vals σ xs ∈ (automaton s (fun i j => matrixEntry (m i j)) q0 (fs.map Int.toNat)).accepts
  | .lexLt xs ys => vals σ xs < vals σ ys
  | .lexLe xs ys => vals σ xs ≤ vals σ ys
  | .conj g h => g.Holds ∧ h.Holds
  | .fresh body => ∃ z : ℤ, (body (.int z)).Holds

end

/-! ## Documented forms -/

section
variable {ι : Type}

inductive Kind
  | arg | arith | constr
deriving DecidableEq

/-- A Boolean expression is a constant, a variable or a constraint. -/
def boolConstr (k : Option Kind) : Option Kind := if k = some .arg ∨ k = some .constr then some .constr else none

/-- An operand of an arithmetic function or comparison is any documented expression, of a Boolean constraint a
Boolean expression; `count` with a relation is a global constraint and no expression. -/
def Exp.kind : Exp ι → Option Kind
  | .arg _ => some .arg
  | .neg e | .abs e => e.kind.map fun _ => .arith
  | .add a b | .sub a b | .mul a b | .quot a b | .mod a b | .min2 a b | .max2 a b =>
    a.kind.bind fun _ => b.kind.map fun _ => .arith
  | .minL _ | .maxL _ | .sumL _ => some .arith
  | .rel _ a b => a.kind.bind fun _ => b.kind.map fun _ => .constr
  | .dom _ _ => some .constr
  | .not a => boolConstr a.kind
  | .and a b | .xor a b | .or a b | .imp a b | .iff a b => (boolConstr a.kind).bind fun _ => boolConstr b.kind
  | .count .. => none

/-- An entry of a transition matrix is an integer (or, for an automaton that is not deterministic, a list: no element
of a parameter array is one). -/
def Goal.Documented : Goal ι → Prop
  | .constr e => e.kind = some .constr
  | .regular _ q s m q0 _ => (1 ≤ q0 ∧ q0 ≤ q) ∧ ∀ i, 1 ≤ i → i ≤ q → ∀ j, 1 ≤ j → j ≤ s → ∃ z, m i j = some (.int z)
  | .conj g h => g.Documented ∧ h.Documented
  | .fresh body => ∀ z : ℤ, (body (.int z)).Documented
  | _ => True

end

end Picat.FlatZinc

/-! # FlatZinc constraint terms -/

namespace Picat.FlatZinc

inductive Fzn (ι : Type)
  | setIn (x : Arg ι) (s : SetTerm)
  | setInReif (x : Arg ι) (s : SetTerm) (b : Arg ι)
  | arrayBoolAnd (as : List (Arg ι)) (b : Arg ι)
  | arrayBoolOr (as : List (Arg ι)) (b : Arg ι)
  | arrayBoolXor (as : List (Arg ι))
  | arrayBoolElement (i : Arg ι) (as : List (Arg ι)) (e : Arg ι)
  | arrayIntElement (i : Arg ι) (as : List (Arg ι)) (e : Arg ι)
  | arrayVarBoolElement (i : Arg ι) (as : List (Arg ι)) (e : Arg ι)
  | arrayVarIntElement (i : Arg ι) (as : List (Arg ι)) (e : Arg ι)
  | bool2int (x y : Arg ι)
  | boolAnd (x y z : Arg ι)
  | boolClause (ps ns : List (Arg ι))
  | boolEq (x y : Arg ι)
  | boolEqReif (x y b : Arg ι)
  | boolLe (x y : Arg ι)
  | boolLeReif (x y b : Arg ι)
  | boolLt (x y : Arg ι)
  | boolLtReif (x y b : Arg ι)
  | boolNot (x y : Arg ι)
  | boolOr (x y z : Arg ι)
  | boolXor (x y z : Arg ι)
  | intNegate (x z : Arg ι)
  | intPlus (x y z : Arg ι)
  | intMinus (x y z : Arg ι)
  | intTimes (x y z : Arg ι)
  | intAbs (x z : Arg ι)
  | intDiv (dividend divisor quotient : Arg ι)
  | intMod (dividend divisor remainder : Arg ι)
  | intMin (x y z : Arg ι)
  | intMax (x y z : Arg ι)
  | intEq (x y : Arg ι)
  | intNe (x y : Arg ι)
  | intLe (x y : Arg ι)
  | intLt (x y : Arg ι)
  | intGe (x y : Arg ι)
  | intGt (x y : Arg ι)
  | intEqReif (x y b : Arg ι)
  | intNeReif (x y b : Arg ι)
  | intLeReif (x y b : Arg ι)
  | intLtReif (x y b : Arg ι)
  | intGeReif (x y b : Arg ι)
  | intGtReif (x y b : Arg ι)
  | intLinEq (cs : List ℤ) (xs : List (Arg ι)) (rhs : Arg ι)
  | intLinNe (cs : List ℤ) (xs : List (Arg ι)) (rhs : Arg ι)
  | intLinLe (cs : List ℤ) (xs : List (Arg ι)) (rhs : Arg ι)
  | intLinGe (cs : List ℤ) (xs : List (Arg ι)) (rhs : Arg ι)
  | intLinLt (cs : List ℤ) (xs : List (Arg ι)) (rhs : Arg ι)
  | intLinGt (cs : List ℤ) (xs : List (Arg ι)) (rhs : Arg ι)
  | boolLinEq (cs : List ℤ) (xs : List (Arg ι)) (rhs : Arg ι)
  | boolLinLe (cs : List ℤ) (xs : List (Arg ι)) (rhs : Arg ι)
  | intLinEqReif (cs : List ℤ) (xs : List (Arg ι)) (rhs b : Arg ι)
  | intLinNeReif (cs : List ℤ) (xs : List (Arg ι)) (rhs b : Arg ι)
  | intLinLeReif (cs : List ℤ) (xs : List (Arg ι)) (rhs b : Arg ι)
  | intLinGeReif (cs : List ℤ) (xs : List (Arg ι)) (rhs b : Arg ι)
  | intLinLtReif (cs : List ℤ) (xs : List (Arg ι)) (rhs b : Arg ι)
  | intLinGtReif (cs : List ℤ) (xs : List (Arg ι)) (rhs b : Arg ι)
  | allDifferent (vec : List (Arg ι))
  | alldifferent (vec : List (Arg ι))
  | allDifferentInt (vec : List (Arg ι))
  | alldifferentExcept0 (vec : List (Arg ι))
  | inverse (vec1 vec2 : List (Arg ι))
  | countReif (vec : List (Arg ι)) (v n b : Arg ι)
  | count (vec : List (Arg ι)) (v n : Arg ι)
  | countEq (vec : List (Arg ι)) (v n : Arg ι)
  | countGeq (vec : List (Arg ι)) (v n : Arg ι)
  | countGt (vec : List (Arg ι)) (v n : Arg ι)
  | countLeq (vec : List (Arg ι)) (v n : Arg ι)
  | countLt (vec : List (Arg ι)) (v n : Arg ι)
  | countNeq (vec : List (Arg ι)) (v n : Arg ι)
  | element (i : Arg ι) (vec : List (Arg ι)) (y : Arg ι)
  | elementInt (i : Arg ι) (vec : List (Arg ι)) (y : Arg ι)
  | elementBool (i : Arg ι) (vec : List (Arg ι)) (y : Arg ι)
  | maximum (x : Arg ι) (vec : List (Arg ι))
  | maximumInt (x : Arg ι) (vec : List (Arg ι))
  | minimum (x : Arg ι) (vec : List (Arg ι))
  | minimumInt (x : Arg ι) (vec : List (Arg ι))
  | regularNfa (xs : List (Arg ι)) (q s : ℕ) (d : List Elem) (q0 : ℕ) (f : SetTerm)
  | regular (xs : List (Arg ι)) (q s : ℕ) (d : List Elem) (q0 : ℕ) (f : SetTerm)
  | table (vecV : List (Arg ι)) (vecT : List ℤ)
  | tableInt (vecV : List (Arg ι)) (vecT : List ℤ)
  | tableBool (vecV : List (Arg ι)) (vecT : List ℤ)
  | lexLess (vec1 vec2 : List (Arg ι))
  | lexLesseq (vec1 vec2 : List (Arg ι))
  | lexLesseqInt (vec1 vec2 : List (Arg ι))
  | lexLesseqBool (vec1 vec2 : List (Arg ι))
  | lexLessInt (vec1 vec2 : List (Arg ι))
  | lexLessBool (vec1 vec2 : List (Arg ι))

/-! ## Meaning -/

def SetTerm.Mem (z : ℤ) : SetTerm → Prop
  | .range l u => l ≤ z ∧ z ≤ u
  | .braces dom => z ∈ dom

/-- The states that an element of `D` leads to; 0 is the failing state. -/
def Elem.LeadsTo (next : ℕ) : Elem → Prop
  | .int z => z = next ∧ next ≠ 0
  | .set s => s.Mem next

/-- The automaton reads its input from `state`; row `state` of `D` has an element for each input `1..S`. -/
def regularFrom (s : ℕ) (d : List Elem) (f : SetTerm) : ℕ → List ℤ → Prop
  | state, [] => f.Mem state
  | state, x :: xs =>
    (1 ≤ x ∧ x ≤ s) ∧ ∃ e ∈ d[(state - 1) * s + (x.toNat - 1)]?, ∃ next, e.LeadsTo next ∧ regularFrom s d f next xs

section
variable {ι : Type} (σ : ι → ℤ)

def Arg.True (x : Arg ι) : Prop := x.val σ = 1

def linear (cs : List ℤ) (xs : List (Arg ι)) : ℤ := (List.zipWith (fun c x => c * x.val σ) cs xs).sum

def elementHolds (i : Arg ι) (xs : List (Arg ι)) (e : Arg ι) : Prop :=
  1 ≤ i.val σ ∧ (vals σ xs)[(i.val σ).toNat - 1]? = some (e.val σ)

def differentHolds (xs : List (Arg ι)) : Prop := (vals σ xs).Nodup

/-- How many of `xs` are equal to `v`. -/
def occurrences (xs : List (Arg ι)) (v : Arg ι) : ℕ := (vals σ xs).count (v.val σ)

def maximumHolds (x : Arg ι) (xs : List (Arg ι)) : Prop := x.val σ ∈ vals σ xs ∧ ∀ v ∈ vals σ xs, v ≤ x.val σ

def minimumHolds (x : Arg ι) (xs : List (Arg ι)) : Prop := x.val σ ∈ vals σ xs ∧ ∀ v ∈ vals σ xs, x.val σ ≤ v

def inverseHolds (xs ys : List ℤ) : Prop :=
  (∀ x ∈ xs, 1 ≤ x ∧ x ≤ ys.length) ∧ (∀ y ∈ ys, 1 ≤ y ∧ y ≤ xs.length) ∧
    ∀ (i j : ℕ) (x y : ℤ), xs[i]? = some x → ys[j]? = some y → (x = j + 1 ↔ y = i + 1)

def tableHolds (xs : List (Arg ι)) (t : List ℤ) : Prop :=
  ∃ row < t.length / xs.length, ∀ j < xs.length, (vals σ xs)[j]? = t[xs.length * row + j]?

/-- At the first place where they differ the first is less, or it ends there. -/
def lexHolds (xs ys : List ℤ) : Prop :=
  ∃ k, (∀ j < k, xs[j]? = ys[j]?) ∧ ((∃ x y, xs[k]? = some x ∧ ys[k]? = some y ∧ x < y) ∨ xs.length = k ∧ k < ys.length)

/-- A quotient by 0 and the extreme element of an empty array are undefined: the constraint is false. -/
def Fzn.Holds : Fzn ι → Prop
  | .setIn x s => s.Mem (x.val σ)
  | .setInReif x s b => b.True σ ↔ s.Mem (x.val σ)
  | .arrayBoolAnd as b => b.True σ ↔ ∀ a ∈ as, a.True σ
  | .arrayBoolOr as b => b.True σ ↔ ∃ a ∈ as, a.True σ
  | .arrayBoolXor as => (vals σ as).count 1 % 2 = 1
  | .arrayBoolElement i as e => elementHolds σ i as e
  | .arrayIntElement i as e => elementHolds σ i as e
  | .arrayVarBoolElement i as e => elementHolds σ i as e
  | .arrayVarIntElement i as e => elementHolds σ i as e
  | .bool2int x y => (x.True σ ∧ y.val σ = 1) ∨ (¬ x.True σ ∧ y.val σ = 0)
  | .boolAnd x y z => z.True σ ↔ x.True σ ∧ y.True σ
  | .boolClause ps ns => (∃ p ∈ ps, p.True σ) ∨ ∃ n ∈ ns, ¬ n.True σ
  | .boolEq x y => x.True σ ↔ y.True σ
  | .boolEqReif x y b => b.True σ ↔ (x.True σ ↔ y.True σ)
  | .boolLe x y => x.True σ → y.True σ
  | .boolLeReif x y b => b.True σ ↔ (x.True σ → y.True σ)
  | .boolLt x y => ¬ x.True σ ∧ y.True σ
  | .boolLtReif x y b => b.True σ ↔ ¬ x.True σ ∧ y.True σ
  | .boolNot x y => y.True σ ↔ ¬ x.True σ
  | .boolOr x y z => z.True σ ↔ x.True σ ∨ y.True σ
  | .boolXor x y z => z.True σ ↔ ¬ (x.True σ ↔ y.True σ)
  | .intNegate x z => z.val σ = -x.val σ
  | .intPlus x y z => z.val σ = x.val σ + y.val σ
  | .intMinus x y z => z.val σ = x.val σ - y.val σ
  | .intTimes x y z => z.val σ = x.val σ * y.val σ
  | .intAbs x z => z.val σ = |x.val σ|
  | .intDiv x y d => y.val σ ≠ 0 ∧ d.val σ = (x.val σ).tdiv (y.val σ)
  | .intMod x y m => y.val σ ≠ 0 ∧ m.val σ = (x.val σ).tmod (y.val σ)
  | .intMin x y z => z.val σ = min (x.val σ) (y.val σ)
  | .intMax x y z => z.val σ = max (x.val σ) (y.val σ)
  | .intEq x y => x.val σ = y.val σ
  | .intNe x y => x.val σ ≠ y.val σ
  | .intLe x y => x.val σ ≤ y.val σ
  | .intLt x y => x.val σ < y.val σ
  | .intGe x y => y.val σ ≤ x.val σ
  | .intGt x y => y.val σ < x.val σ
  | .intEqReif x y b => b.True σ ↔ x.val σ = y.val σ
  | .intNeReif x y b => b.True σ ↔ x.val σ ≠ y.val σ
  | .intLeReif x y b => b.True σ ↔ x.val σ ≤ y.val σ
  | .intLtReif x y b => b.True σ ↔ x.val σ < y.val σ
  | .intGeReif x y b => b.True σ ↔ y.val σ ≤ x.val σ
  | .intGtReif x y b => b.True σ ↔ y.val σ < x.val σ
  | .intLinEq cs xs rhs => linear σ cs xs = rhs.val σ
  | .intLinNe cs xs rhs => linear σ cs xs ≠ rhs.val σ
  | .intLinLe cs xs rhs => linear σ cs xs ≤ rhs.val σ
  | .intLinGe cs xs rhs => rhs.val σ ≤ linear σ cs xs
  | .intLinLt cs xs rhs => linear σ cs xs < rhs.val σ
  | .intLinGt cs xs rhs => rhs.val σ < linear σ cs xs
  | .boolLinEq cs xs rhs => linear σ cs xs = rhs.val σ
  | .boolLinLe cs xs rhs => linear σ cs xs ≤ rhs.val σ
  | .intLinEqReif cs xs rhs b => b.True σ ↔ linear σ cs xs = rhs.val σ
  | .intLinNeReif cs xs rhs b => b.True σ ↔ linear σ cs xs ≠ rhs.val σ
  | .intLinLeReif cs xs rhs b => b.True σ ↔ linear σ cs xs ≤ rhs.val σ
  | .intLinGeReif cs xs rhs b => b.True σ ↔ rhs.val σ ≤ linear σ cs xs
  | .intLinLtReif cs xs rhs b => b.True σ ↔ linear σ cs xs < rhs.val σ
  | .intLinGtReif cs xs rhs b => b.True σ ↔ rhs.val σ < linear σ cs xs
  | .allDifferent vec => differentHolds σ vec
  | .alldifferent vec => differentHolds σ vec
  | .allDifferentInt vec => differentHolds σ vec
  | .alldifferentExcept0 vec =>
    ∀ (i j : ℕ) (x y : ℤ), (vals σ vec)[i]? = some x → (vals σ vec)[j]? = some y → i ≠ j → x ≠ 0 → y ≠ 0 → x ≠ y
  | .inverse vec1 vec2 => inverseHolds (vals σ vec1) (vals σ vec2)
  | .countReif vec v n b => b.True σ ↔ n.val σ = occurrences σ vec v
  | .count vec v n => n.val σ = occurrences σ vec v
  | .countEq vec v n => n.val σ = occurrences σ vec v
  | .countGeq vec v n => n.val σ ≥ occurrences σ vec v
  | .countGt vec v n => n.val σ > occurrences σ vec v
  | .countLeq vec v n => n.val σ ≤ occurrences σ vec v
  | .countLt vec v n => n.val σ < occurrences σ vec v
  | .countNeq vec v n => n.val σ ≠ occurrences σ vec v
  | .element i vec y => elementHolds σ i vec y
  | .elementInt i vec y => elementHolds σ i vec y
  | .elementBool i vec y => elementHolds σ i vec y
  | .maximum x vec => maximumHolds σ x vec
  | .maximumInt x vec => maximumHolds σ x vec
  | .minimum x vec => minimumHolds σ x vec
  | .minimumInt x vec => minimumHolds σ x vec
  | .regularNfa xs _ s d q0 f => regularFrom s d f q0 (vals σ xs)
  | .regular xs _ s d q0 f => regularFrom s d f q0 (vals σ xs)
  | .table vecV vecT => tableHolds σ vecV vecT
  | .tableInt vecV vecT => tableHolds σ vecV vecT
  | .tableBool vecV vecT => tableHolds σ vecV vecT
  | .lexLess vec1 vec2 => lexHolds (vals σ vec1) (vals σ vec2)
  | .lexLesseq vec1 vec2 => vals σ vec1 = vals σ vec2 ∨ lexHolds (vals σ vec1) (vals σ vec2)
  | .lexLesseqInt vec1 vec2 => vals σ vec1 = vals σ vec2 ∨ lexHolds (vals σ vec1) (vals σ vec2)
  | .lexLesseqBool vec1 vec2 => vals σ vec1 = vals σ vec2 ∨ lexHolds (vals σ vec1) (vals σ vec2)
  | .lexLessInt vec1 vec2 => lexHolds (vals σ vec1) (vals σ vec2)
  | .lexLessBool vec1 vec2 => lexHolds (vals σ vec1) (vals σ vec2)

end

/-! ## Types -/

/-- The transition function, the initial and the accepting states are those of an automaton of `Q` states. -/
def automatonWellFormed (q s : ℕ) (d : List Elem) (q0 : ℕ) (f : SetTerm) : Prop :=
  (1 ≤ q0 ∧ q0 ≤ q) ∧ d.length = q * s ∧ ∀ z, f.Mem z → 1 ≤ z ∧ z ≤ q

section
variable {ι : Type}

def Fzn.WellFormed : Fzn ι → Prop
  | .intLinEq cs xs _ | .intLinNe cs xs _ | .intLinLe cs xs _ | .intLinGe cs xs _ | .intLinLt cs xs _
  | .intLinGt cs xs _ | .boolLinEq cs xs _ | .boolLinLe cs xs _ | .intLinEqReif cs xs _ _ | .intLinNeReif cs xs _ _
  | .intLinLeReif cs xs _ _ | .intLinGeReif cs xs _ _ | .intLinLtReif cs xs _ _ | .intLinGtReif cs xs _ _ =>
    cs.length = xs.length
  | .regularNfa _ q s d q0 f =>
    automatonWellFormed q s d q0 f ∧ ∀ e ∈ d, ∃ set, e = .set set ∧ ∀ z, set.Mem z → 1 ≤ z ∧ z ≤ q
  | .regular _ q s d q0 f => automatonWellFormed q s d q0 f ∧ ∀ e ∈ d, ∃ z, e = .int z ∧ 0 ≤ z ∧ z ≤ q
  | .table vecV vecT | .tableInt vecV vecT | .tableBool vecV vecT => vecV ≠ [] ∧ vecV.length ∣ vecT.length
  | _ => True

def Fzn.bools : Fzn ι → List (Arg ι)
  | .setInReif _ _ b => [b]
  | .arrayBoolAnd as b | .arrayBoolOr as b => b :: as
  | .arrayBoolXor as => as
  | .bool2int x _ => [x]
  | .boolClause ps ns => ps ++ ns
  | .boolEq x y | .boolLe x y | .boolLt x y | .boolNot x y => [x, y]
  | .boolAnd x y z | .boolOr x y z | .boolXor x y z => [x, y, z]
  | .boolEqReif x y b | .boolLeReif x y b | .boolLtReif x y b => [x, y, b]
  | .intEqReif _ _ b | .intNeReif _ _ b | .intLeReif _ _ b | .intLtReif _ _ b | .intGeReif _ _ b
  | .intGtReif _ _ b => [b]
  | .intLinEqReif _ _ _ b | .intLinNeReif _ _ _ b | .intLinLeReif _ _ _ b | .intLinGeReif _ _ _ b
  | .intLinLtReif _ _ _ b | .intLinGtReif _ _ _ b => [b]
  | .boolLinEq _ xs _ | .boolLinLe _ xs _ => xs
  | .countReif _ _ _ b => [b]
  | _ => []

def Fzn.Typed (σ : ι → ℤ) (c : Fzn ι) : Prop := ∀ x ∈ c.bools, x.val σ = 0 ∨ x.val σ = 1

end

end Picat.FlatZinc
