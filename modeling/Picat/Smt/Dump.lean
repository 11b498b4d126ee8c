import Mathlib.Algebra.BigOperators.Group.List.Basic
import Mathlib.Algebra.Order.Ring.Int
import Picat.Lib.FreshVariables

/-!
# Assertions

The assertions that are written, as the terms and formulas of SMT-LIB that they are, read over the integers.

* `Constr.WellFormed` : what the store keeps to.
-/

namespace Picat.Smt
open FreshVariables

/-- An operand, `Xi` for a variable. -/
inductive Opd
  | int (z : ℤ)
  | var (i : ℕ)
deriving DecidableEq

inductive Rel
  | eq | neq | ge | gt | le | lt
deriving DecidableEq

abbrev Terms := List (ℤ × Opd)

/-- An operand, `(- x)` or `(* c x)`. -/
inductive Mono
  | opd (x : Opd)
  | neg (x : Opd)
  | mul (c x : Opd)
deriving DecidableEq

/-- `plus` is `(+ …)`, `ite b x y` is `(ite (= b 1) x y)`. -/
inductive Term
  | mono (m : Mono)
  | plus (ms : List Mono)
  | ite (b x y : Opd)
deriving DecidableEq

/-- `eqv` is `=` of two formulas, `or` a disjunction of equations. -/
inductive Form
  | rel (r : Rel) (t u : Term)
  | not (f : Form)
  | imp (f g : Form)
  | eqv (f g : Form)
  | or (eqs : List (Opd × Opd))
deriving DecidableEq

/-! ## Meaning -/

section
variable (τ : ℕ → ℤ)

def Opd.val : Opd → ℤ
  | .int z => z
  | .var i => τ i

def Rel.Holds : Rel → ℤ → ℤ → Prop
  | .eq, x, y => x = y
  | .neq, x, y => x ≠ y
  | .ge, x, y => x ≥ y
  | .gt, x, y => x > y
  | .le, x, y => x ≤ y
  | .lt, x, y => x < y

def termsVal (ts : Terms) : ℤ := (ts.map fun t => t.1 * t.2.val τ).sum

def Mono.val : Mono → ℤ
  | .opd x => x.val τ
  | .neg x => -x.val τ
  | .mul c x => c.val τ * x.val τ

def Term.val : Term → ℤ
  | .mono m => m.val τ
  | .plus ms => (ms.map (Mono.val τ)).sum
  | .ite b x y => if b.val τ = 1 then x.val τ else y.val τ

def Form.Holds : Form → Prop
  | .rel r t u => r.Holds (t.val τ) (u.val τ)
  | .not f => ¬ f.Holds
  | .imp f g => f.Holds → g.Holds
  | .eqv f g => f.Holds ↔ g.Holds
  | .or eqs => ∃ e ∈ eqs, e.1.val τ = e.2.val τ

instance decidableRel : (r : Rel) → (x y : ℤ) → Decidable (r.Holds x y)
  | .eq, x, y => inferInstanceAs (Decidable (x = y))
  | .neq, x, y => inferInstanceAs (Decidable (x ≠ y))
  | .ge, x, y => inferInstanceAs (Decidable (x ≥ y))
  | .gt, x, y => inferInstanceAs (Decidable (x > y))
  | .le, x, y => inferInstanceAs (Decidable (x ≤ y))
  | .lt, x, y => inferInstanceAs (Decidable (x < y))

instance decidableHolds : (f : Form) → Decidable (f.Holds τ)
  | .rel r t u => decidableRel r (t.val τ) (u.val τ)
  | .not f => @instDecidableNot _ (decidableHolds f)
  | .imp f g => @instDecidableForall _ _ (decidableHolds f) (decidableHolds g)
  | .eqv f g => @instDecidableIff _ _ (decidableHolds f) (decidableHolds g)
  | .or eqs => inferInstanceAs (Decidable (∃ e ∈ eqs, e.1.val τ = e.2.val τ))

end

def Term.WellFormed : Term → Prop
  | .plus ms => 2 ≤ ms.length
  | _ => True

/-- `+` and `or` take two arguments at least. -/
def Form.WellFormed : Form → Prop
  | .rel _ t u => t.WellFormed ∧ u.WellFormed
  | .not f => f.WellFormed
  | .imp f g | .eqv f g => f.WellFormed ∧ g.WellFormed
  | .or eqs => 2 ≤ eqs.length

instance decidableTerm : (t : Term) → Decidable t.WellFormed
  | .plus ms => inferInstanceAs (Decidable (2 ≤ ms.length))
  | .mono _ | .ite _ _ _ => isTrue trivial

instance decidableForm : (f : Form) → Decidable f.WellFormed
  | .rel _ t u => @instDecidableAnd _ _ (decidableTerm t) (decidableTerm u)
  | .not f => decidableForm f
  | .imp f g | .eqv f g => @instDecidableAnd _ _ (decidableForm f) (decidableForm g)
  | .or eqs => inferInstanceAs (Decidable (2 ≤ eqs.length))

/-! ## Variables -/

/-- The operand is declared: its number is below `n`. -/
def Opd.Below (n : ℕ) : Opd → Prop
  | .int _ => True
  | .var i => i < n

def TermsBelow (n : ℕ) (ts : Terms) : Prop := ∀ t ∈ ts, t.2.Below n

section
variable {n n' : ℕ} {τ τ' : ℕ → ℤ} {x : Opd} {ts : Terms}

theorem Opd.Below.mono (h : x.Below n) (hle : n ≤ n') : x.Below n' := by
  cases x with
  | int z => trivial
  | var i => exact Nat.lt_of_lt_of_le h hle

theorem Opd.Below.val_eq (h : x.Below n) (hag : Agree n τ τ') : x.val τ' = x.val τ := by
  cases x with
  | int z => rfl
  | var i => exact hag i h

theorem TermsBelow.mono (h : TermsBelow n ts) (hle : n ≤ n') : TermsBelow n' ts := fun t ht => (h t ht).mono hle

theorem TermsBelow.val_eq (h : TermsBelow n ts) (hag : Agree n τ τ') : termsVal τ' ts = termsVal τ ts := by
  unfold termsVal
  congr 1
  apply List.map_congr_left
  intro t ht
  rw [(h t ht).val_eq hag]

end

/-! ## Constraints of the store -/

inductive BoolExp
  | opd (x : Opd)
  | iff (x y : BoolExp)
  | imp (x y : BoolExp)
  | and (x y : BoolExp)
  | or (x y : BoolExp)
  | xor (x y : BoolExp)
  | not (x : BoolExp)
deriving DecidableEq

inductive Link
  | reif | imp
deriving DecidableEq

/-- An element of a tuple, `*` or an integer. -/
inductive Cell
  | any
  | int (a : ℤ)
deriving DecidableEq

/-- `max2`, `maxL` are the two forms of `$max_constr`, and so for `$min_constr`. -/
inductive Constr
  | reifIn (b x : Opd) (l : List ℤ)
  | reifNotin (b x : Opd) (l : List ℤ)
  | arith (r : Rel) (const : ℤ) (ts : Terms)
  | alldifferent (l : List Opd)
  | max2 (x y t : Opd)
  | min2 (x y t : Opd)
  | maxL (l : List Opd) (t : Opd)
  | minL (l : List Opd) (t : Opd)
  | reifImp (k : Link) (b : Opd) (r : Rel) (const : ℤ) (ts : Terms)
  | iff (x y : BoolExp)
  | imp (x y : BoolExp)
  | or (x y : BoolExp)
  | and (x y : BoolExp)
  | xor (x y : BoolExp)
  | not (x : BoolExp)
  | ifC (b x y t : Opd)
  | tableIn (vars : List Opd) (tuples : List (List Cell))
  | tableNotin (vars : List Opd) (tuples : List (List Cell))
deriving DecidableEq

/-- `$reif_eq_tab` of the variables: `B` of `B <=> (V = Val)`. -/
abbrev Table := ℕ → ℤ → Option Opd

/-! ## Meaning -/

/-- `B <=> C`, or `B => C`. -/
def Link.Holds : Link → Prop → Prop → Prop
  | .reif, p, q => p ↔ q
  | .imp, p, q => p → q

section
variable (tab : Table) (τ : ℕ → ℤ)

def Opd.True (x : Opd) : Prop := x.val τ = 1

instance (x : Opd) : Decidable (x.True τ) := inferInstanceAs (Decidable (x.val τ = 1))

def BoolExp.Holds : BoolExp → Prop
  | .opd x => x.True τ
  | .iff x y => x.Holds ↔ y.Holds
  | .imp x y => x.Holds → y.Holds
  | .and x y => x.Holds ∧ y.Holds
  | .or x y => x.Holds ∨ y.Holds
  | .xor x y => ¬ (x.Holds ↔ y.Holds)
  | .not x => ¬ x.Holds

/-- `V = A`, read from the variable that the table has for it. -/
def EqVia : Opd → ℤ → Prop
  | .int z, a => z = a
  | .var i, a => match tab i a with
    | some b => b.True τ
    | none => τ i = a

def cellHolds (v : Opd) : Cell → Prop
  | .any => True
  | .int a => EqVia tab τ v a

def tupleHolds (vars : List Opd) (tuple : List Cell) : Prop := ∀ p ∈ vars.zip tuple, cellHolds tab τ p.1 p.2

def arithHolds (r : Rel) (const : ℤ) (ts : Terms) : Prop := r.Holds (termsVal τ ts + const) 0

instance (r : Rel) (const : ℤ) (ts : Terms) : Decidable (arithHolds τ r const ts) :=
  decidableRel r (termsVal τ ts + const) 0

def maxHolds (l : List Opd) (t : Opd) : Prop := (∃ v ∈ l, t.val τ = v.val τ) ∧ ∀ v ∈ l, v.val τ ≤ t.val τ

def minHolds (l : List Opd) (t : Opd) : Prop := (∃ v ∈ l, t.val τ = v.val τ) ∧ ∀ v ∈ l, v.val τ ≥ t.val τ

def Constr.Holds : Constr → Prop
  | .reifIn b x l => b.True τ ↔ x.val τ ∈ l
  | .reifNotin b x l => b.True τ ↔ x.val τ ∉ l
  | .arith r const ts => arithHolds τ r const ts
  | .alldifferent l => (l.map (Opd.val τ)).Nodup
  | .max2 x y t => t.val τ = max (x.val τ) (y.val τ)
  | .min2 x y t => t.val τ = min (x.val τ) (y.val τ)
  | .maxL l t => maxHolds τ l t
  | .minL l t => minHolds τ l t
  | .reifImp k b r const ts => k.Holds (b.True τ) (arithHolds τ r const ts)
  | .iff x y => x.Holds τ ↔ y.Holds τ
  | .imp x y => x.Holds τ → y.Holds τ
  | .or x y => x.Holds τ ∨ y.Holds τ
  | .and x y => x.Holds τ ∧ y.Holds τ
  | .xor x y => ¬ (x.Holds τ ↔ y.Holds τ)
  | .not x => ¬ x.Holds τ
  | .ifC b x y t => t.val τ = if b.val τ = 1 then x.val τ else y.val τ
  | .tableIn vars tuples => ∃ tuple ∈ tuples, tupleHolds tab τ vars tuple
  | .tableNotin vars tuples => ∀ tuple ∈ tuples, ¬ tupleHolds tab τ vars tuple

end

def noTable : Table := fun _ _ => none

/-! ## Form -/

def BoolExp.opds : BoolExp → List Opd
  | .opd x => [x]
  | .iff x y | .imp x y | .and x y | .or x y | .xor x y => x.opds ++ y.opds
  | .not x => x.opds

def Constr.bools : Constr → List Opd
  | .reifIn b _ _ | .reifNotin b _ _ | .reifImp _ b _ _ _ | .ifC b _ _ _ => [b]
  | .iff x y | .imp x y | .or x y | .and x y | .xor x y => x.opds ++ y.opds
  | .not x => x.opds
  | _ => []

def Constr.opds : Constr → List Opd
  | .reifIn _ x _ | .reifNotin _ x _ => [x]
  | .arith _ _ ts | .reifImp _ _ _ _ ts => ts.map Prod.snd
  | .alldifferent l => l
  | .max2 x y t | .min2 x y t => [x, y, t]
  | .maxL l t | .minL l t => t :: l
  | .ifC _ x y t => [x, y, t]
  | .tableIn vars _ | .tableNotin vars _ => vars
  | _ => []

def Rel.Stored (r : Rel) : Prop := r = .eq ∨ r = .neq ∨ r = .ge ∨ r = .gt

/-- The tuples of a table are as long as the tuple of variables. -/
def Constr.WellFormed : Constr → Prop
  | .arith r _ _ | .reifImp _ _ r _ _ => r.Stored
  | .tableIn vars tuples | .tableNotin vars tuples => ∀ tuple ∈ tuples, tuple.length = vars.length
  | _ => True

end Picat.Smt

/-! # Dumping constraints -/

namespace Picat.Smt

/-- `next` is the number of the next variable (`next_var_num`), `table` the tables `$reif_eq_tab`. -/
structure Dump where
  next : ℕ
  table : Table
  out : List Form

def Dump.assert (st : Dump) (f : Form) : Dump := { st with out := st.out ++ [f] }

/-! ## Terms -/

/-- `smt_dump_rel`; `neq` is written as the negation of an equation. -/
def dumpRel (r : Rel) (t u : Term) : Form := if r = .neq then .not (.rel .eq t u) else .rel r t u

def Term.opd (x : Opd) : Term := .mono (.opd x)

def dumpTerm (t : ℤ × Opd) : Mono :=
  if t.1 = 1 then .opd t.2 else if t.1 = -1 then .neg t.2 else .mul (.int t.1) t.2

def dumpTerms : Terms → Term
  | [] => .mono (dumpTerm (0, .int 0))
  | [t] => .mono (dumpTerm t)
  | ts => .plus (ts.map dumpTerm)

/-! ## Assertions -/

/-- `X Rel Y`. -/
def dumpBinConstr (r : Rel) (x y : Opd) (st : Dump) : Dump := st.assert (.rel r (.opd x) (.opd y))

def dumpNeqConstr (x y : Opd) (st : Dump) : Dump := st.assert (.not (.rel .eq (.opd x) (.opd y)))

def dumpArithConstr (r : Rel) (const : ℤ) (ts : Terms) (st : Dump) : Dump :=
  st.assert (dumpRel r (dumpTerms ts) (.opd (.int (-const))))

def newDvar (lb ub : ℤ) (st : Dump) : Opd × Dump :=
  (.var st.next, dumpBinConstr .ge (.int ub) (.var st.next)
    (dumpBinConstr .ge (.var st.next) (.int lb) { st with next := st.next + 1 }))

def Link.form : Link → Form → Form → Form
  | .reif, f, g => .eqv f g
  | .imp, f, g => .imp f g

def dumpReifImpConstr (k : Link) (b : Opd) (r : Rel) (const : ℤ) (ts : Terms) (st : Dump) : Dump :=
  let isOne := Form.rel .eq (.opd b) (.opd (.int 1))
  match r with
  | .gt => st.assert (k.form isOne (dumpRel .ge (dumpTerms ts) (.opd (.int (-(const - 1))))))
  | _ => st.assert (k.form isOne (dumpRel r (dumpTerms ts) (.opd (.int (-const)))))

def dumpForeachConstr (r : Rel) (vs : List Opd) (t : Opd) (st : Dump) : Dump :=
  vs.foldl (fun st v => dumpBinConstr r v t st) st

def dumpMemberConstr (vs : List Opd) (t : Opd) (st : Dump) : Dump := st.assert (.or (vs.map fun v => (t, v)))

def dumpMinlistConstr (vs : List Opd) (t : Opd) (st : Dump) : Dump :=
  match vs with
  | [v] => dumpBinConstr .eq v t st
  | vs => dumpMemberConstr vs t (dumpForeachConstr .ge vs t st)

def dumpMaxlistConstr (vs : List Opd) (t : Opd) (st : Dump) : Dump :=
  match vs with
  | [v] => dumpBinConstr .eq v t st
  | vs => dumpMemberConstr vs t (dumpForeachConstr .le vs t st)

def dumpOutofConstr (x : Opd) (ys : List Opd) (st : Dump) : Dump :=
  ys.foldl (fun st y => dumpArithConstr .neq 0 [(1, x), (-1, y)] st) st

def dumpAlldifferentConstr : List Opd → Dump → Dump
  | [], st => st
  | x :: xs, st => dumpAlldifferentConstr xs (dumpOutofConstr x xs st)

/-- The variable of a connective is declared before its operands are dumped; a constant has to be 0 or 1. -/
def dumpBoolExp : BoolExp → Dump → Option (Opd × Dump)
  | .opd (.int z), st => if 0 ≤ z ∧ z ≤ 1 then some (.int z, st) else none
  | .opd (.var i), st => some (.var i, st)
  | .iff x y, st => do
    let (b, st) := newDvar 0 1 st
    let (nx, st) ← dumpBoolExp x st
    let (ny, st) ← dumpBoolExp y st
    return (b, dumpReifImpConstr .reif b .eq 0 [(1, nx), (-1, ny)] st)
  | .imp x y, st => do
    let (b, st) := newDvar 0 1 st
    let (nx, st) ← dumpBoolExp x st
    let (ny, st) ← dumpBoolExp y st
    return (b, dumpReifImpConstr .reif b .ge 0 [(1, ny), (-1, nx)] st)
  | .and x y, st => do
    let (b, st) := newDvar 0 1 st
    let (nx, st) ← dumpBoolExp x st
    let (ny, st) ← dumpBoolExp y st
    return (b, dumpMinlistConstr [nx, ny] b st)
  | .or x y, st => do
    let (b, st) := newDvar 0 1 st
    let (nx, st) ← dumpBoolExp x st
    let (ny, st) ← dumpBoolExp y st
    return (b, dumpMaxlistConstr [nx, ny] b st)
  | .xor x y, st => do
    let (b, st) := newDvar 0 1 st
    let (nx, st) ← dumpBoolExp x st
    let (ny, st) ← dumpBoolExp y st
    return (b, dumpReifImpConstr .reif b .neq 0 [(1, nx), (-1, ny)] st)
  | .not x, st => do
    let (b, st) := newDvar 0 1 st
    let (nx, st) ← dumpBoolExp x st
    return (b, dumpReifImpConstr .reif b .eq 0 [(1, nx)] st)

/-! ## Domains and tables -/

/-- A Boolean variable for each element, `X = E` or `X != E`. -/
def dumpReifElements (r : Rel) (x : Opd) : List ℤ → Dump → List Opd × Dump
  | [], st => ([], st)
  | e :: l, st =>
    let (be, st) := newDvar 0 1 st
    let (bs, st) := dumpReifElements r x l (dumpReifImpConstr .reif be r (-e) [(1, x)] st)
    (be :: bs, st)

def dumpReifInConstrAux : Opd → List ℤ → Dump → List Opd × Dump := dumpReifElements .eq

def dumpReifNotinConstrAux : Opd → List ℤ → Dump → List Opd × Dump := dumpReifElements .neq

def dumpReifInConstr (b x : Opd) (l : List ℤ) (st : Dump) : Dump :=
  let (bs, st) := dumpReifInConstrAux x l st
  dumpMaxlistConstr bs b st

def dumpReifNotinConstr (b x : Opd) (l : List ℤ) (st : Dump) : Dump :=
  let (bs, st) := dumpReifNotinConstrAux x l st
  dumpMinlistConstr bs b st

/-- `smt_reif_v_eq_c_lookup`, and the definition of the variable when the table has none for `V = A`. -/
def dumpReifVEqC (v : Opd) (a : ℤ) (st : Dump) : Opd × Dump :=
  match v with
  | .int z => (if z = a then .int 1 else .int 0, st)
  | .var i => match st.table i a with
    | some b => (b, st)
    | none =>
      let table := Function.update st.table i (Function.update (st.table i) a (some (.var st.next)))
      let (b, st) := newDvar 0 1 { st with table := table }
      (b, dumpReifImpConstr .reif b .eq (-a) [(1, v)] st)

/-- The terms `Bij`, with coefficient `coe`, for the elements of a tuple, put before `terms`. -/
def dumpTupleTerms (coe : ℤ) : List Opd → List Cell → Terms → Dump → Option (Terms × Dump)
  | [], _, terms, st => some (terms, st)
  | _ :: _, [], _, _ => none
  | v :: vs, a :: as, terms, st =>
    match a with
    | .any => dumpTupleTerms coe vs as ((coe, .int 1) :: terms) st
    | .int a =>
      let (bij, st) := dumpReifVEqC v a st
      dumpTupleTerms coe vs as ((coe, bij) :: terms) st

/-- `B => Bi1+Bi2+..+Bin = n`. -/
def dumpEntailsEqTupleConstr (vars : List Opd) (tuple : List Cell) (b : Opd) (st : Dump) : Option Dump := do
  let (terms, st) ← dumpTupleTerms 1 vars tuple [] st
  return dumpArithConstr .ge 0 ((-vars.length, b) :: terms) st

def dumpTableInConstrAux (vars : List Opd) : List (List Cell) → Terms → Dump → Option Dump
  | [], bTerms, st => some (dumpArithConstr .eq (-1) bTerms st)
  | tuple :: tuples, bTerms, st => do
    let (b, st) := newDvar 0 1 st
    let st ← dumpEntailsEqTupleConstr vars tuple b st
    dumpTableInConstrAux vars tuples ((1, b) :: bTerms) st

def dumpTableInConstr (vars : List Opd) (tuples : List (List Cell)) (st : Dump) : Option Dump :=
  dumpTableInConstrAux vars tuples [] st

/-- `Bi1+Bi2+..+Bin < n`. -/
def dumpNotinTupleConstr (vars : List Opd) (tuple : List Cell) (st : Dump) : Option Dump := do
  let (terms, st) ← dumpTupleTerms (-1) vars tuple [] st
  return dumpArithConstr .ge (vars.length - 1) terms st

def dumpTableNotinConstr (vars : List Opd) : List (List Cell) → Dump → Option Dump
  | [], st => some st
  | tuple :: tuples, st => do
    let st ← dumpNotinTupleConstr vars tuple st
    dumpTableNotinConstr vars tuples st

/-! ## Constraints -/

/-- `sat_negate_terms`: the terms with positive coefficients come first. -/
def negateTerms (ts : Terms) : Terms :=
  let neg := ts.map fun t => (-t.1, t.2)
  (neg.filter fun t => 0 < t.1) ++ neg.filter fun t => ¬ 0 < t.1

/-- `sat_negate_arith_constr`. -/
def negateArithConstr (r : Rel) (const : ℤ) (ts : Terms) : Option (Rel × ℤ × Terms) :=
  match r with
  | .ge => some (.gt, -const, negateTerms ts)
  | .gt => some (.ge, -const, negateTerms ts)
  | .eq => some (.neq, const, ts)
  | .neq => some (.eq, const, ts)
  | _ => none

/-- A Boolean expression that has to have the truth value `z`; a constant is compared. -/
def dumpIs (z : ℤ) (x : Opd) (st : Dump) : Option Dump :=
  match x with
  | .var _ => some (dumpBinConstr .eq x (.int z) st)
  | .int w => if w = z then some st else none

def dumpConstr : Constr → Dump → Option Dump
  | .reifIn b x l, st => some (dumpReifInConstr b x l st)
  | .reifNotin b x l, st => some (dumpReifNotinConstr b x l st)
  | .arith r const ts, st => some (dumpArithConstr r const ts st)
  | .alldifferent l, st => some (dumpAlldifferentConstr l st)
  | .max2 x y t, st => some (dumpMaxlistConstr [x, y] t st)
  | .min2 x y t, st => some (dumpMinlistConstr [x, y] t st)
  | .maxL l t, st => some (dumpMaxlistConstr l t st)
  | .minL l t, st => some (dumpMinlistConstr l t st)
  | .reifImp .reif (.int b) r const ts, st =>
    if b = 1 then some (dumpArithConstr r const ts st)
    else do
      let (nr, nconst, nts) ← negateArithConstr r const ts
      return dumpArithConstr nr nconst nts st
  | .reifImp .imp (.int b) r const ts, st => if b = 1 then some (dumpArithConstr r const ts st) else some st
  | .reifImp k b r const ts, st => some (dumpReifImpConstr k b r const ts st)
  | .iff x y, st => do
    let (nx, st) ← dumpBoolExp x st
    let (ny, st) ← dumpBoolExp y st
    return dumpBinConstr .eq nx ny st
  | .imp x y, st => do
    let (nx, st) ← dumpBoolExp x st
    let (ny, st) ← dumpBoolExp y st
    return dumpBinConstr .ge ny nx st
  | .or x y, st => do
    let (nx, st) ← dumpBoolExp x st
    let (ny, st) ← dumpBoolExp y st
    return dumpArithConstr .ge (-1) [(1, nx), (1, ny)] st
  | .and x y, st => do
    let (nx, st) ← dumpBoolExp x st
    let (ny, st) ← dumpBoolExp y st
    let st ← dumpIs 1 nx st
    dumpIs 1 ny st
  | .xor x y, st => do
    let (nx, st) ← dumpBoolExp x st
    let (ny, st) ← dumpBoolExp y st
    return dumpNeqConstr ny nx st
  | .not x, st => do
    let (nx, st) ← dumpBoolExp x st
    dumpIs 0 nx st
  | .ifC b x y t, st => some (st.assert (.rel .eq (.opd t) (.ite b x y)))
  | .tableIn vars tuples, st => dumpTableInConstr vars tuples st
  | .tableNotin vars tuples, st => dumpTableNotinConstr vars tuples st

/-- The first clause takes `X => B` and the definition of `B` after it for one constraint. -/
def dumpConstrs : List Constr → Dump → Option Dump
  | [], st => some st
  | .imp (.opd x) (.opd (.var b)) :: .reifImp .reif (.var b') r const ts :: constrs, st =>
    if b = b' ∧ r ≠ .neq then do
      let st ← dumpConstr (.reifImp .imp x r const ts) st
      dumpConstrs constrs st
    else do
      let st ← dumpConstr (.imp (.opd x) (.opd (.var b))) st
      dumpConstrs (.reifImp .reif (.var b') r const ts :: constrs) st
  | c :: constrs, st => do
    let st ← dumpConstr c st
    dumpConstrs constrs st

end Picat.Smt
