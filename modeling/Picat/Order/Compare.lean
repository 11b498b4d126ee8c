import Mathlib.Data.Prod.Lex
import Picat.Lib.LexCompare
import Picat.Sort.SortList
import Picat.Tabling.Identical

/-!
# The standard order of ground terms

* `bpCompare` : the standard order; a big integer is a structure `$bigint(SignSize,Ds)` to those comparisons that do not
  ask for its symbol.

That `bp_compare` returns 0 where both terms have the same address is left out: a term compares as equal with itself.
-/

namespace Picat.Order

open List

/-- The bytes of a name, which `GET_LENGTH` counts. -/
abbrev Name := List (Fin 256)

/-- `strcmp`, up to the size of the result; a byte 0 follows the name, and there may be one in it. -/
def strcmp : Name → Name → ℤ
  | [], [] => 0
  | [], b :: _ => if b = 0 then 0 else -1
  | a :: _, [] => if a = 0 then 0 else 1
  | a :: as, b :: bs => if a ≠ b then (if a > b then 1 else -1) else if a = 0 then 0 else strcmp as bs

/-- `comalpha`: a symbol is told by its name and its arity. -/
def comalpha (sym1 sym2 : Name) : ℤ := if sym1 = sym2 then 0 else strcmp sym1 sym2

/-- The name `{}` of arrays. -/
def arrayName : Name := [123, 125]

/-- The name `$bigint`. -/
def bigintName : Name := [36, 98, 105, 103, 105, 110, 116]

/-- The name `[]`. -/
def nilName : Name := [91, 93]

/-- A ground term without floats. The symbols `$bigint/2` and `$float/3` are those of numbers, and of no structure. -/
inductive GroundTerm
  | int (v : ℤ)
  | bigint (b : Bigint) (canon : (Term.bigint b).Canon)
  | atom (name : Name)
  | lst (car cdr : GroundTerm)
  | str (name : Name) (arg : GroundTerm) (args : List GroundTerm)

namespace GroundTerm

theorem induct {P : GroundTerm → Prop} (int : ∀ v, P (int v)) (bigint : ∀ b canon, P (bigint b canon))
    (atom : ∀ name, P (atom name)) (lst : ∀ car cdr, P car → P cdr → P (lst car cdr))
    (str : ∀ name arg args, P arg → (∀ t ∈ args, P t) → P (str name arg args)) (t : GroundTerm) : P t :=
  @GroundTerm.rec P (fun ts => ∀ t ∈ ts, P t) int bigint atom lst str
    (fun _ h => absurd h not_mem_nil) (fun _ _ ht hts => forall_mem_cons.2 ⟨ht, hts⟩) t

def digits : List ℕ → GroundTerm
  | [] => .atom nilName
  | d :: ds => .lst (.int d) (digits ds)

/-- The name and the arguments of what is tagged as a structure. -/
def functor : GroundTerm → Option (Name × GroundTerm × List GroundTerm)
  | .bigint b _ => some (bigintName, .int b.signSize, [digits b.ds])
  | .str name arg args => some (name, arg, args)
  | _ => none

def isList : GroundTerm → Bool
  | .lst .. => true
  | _ => false

end GroundTerm

mutual

def bpCompare : GroundTerm → GroundTerm → ℤ
  | .int v, .int w => compareVals v w
  | .int _, .bigint b _ => if b.sign < 0 then 1 else -1
  | .int _, _ => -1
  | .atom _, .int _ => 1
  | .atom _, .bigint .. => 1
  | .atom name, .atom name' => comalpha name name'
  | .atom _, _ => -1
  | .bigint b _, .int _ => if b.sign < 0 then -1 else 1
  | .bigint b _, .bigint b' _ => bpCompareBigintBigint b b'
  | .bigint .., _ => -1
  | .lst car cdr, .lst car' cdr' => if bpCompare car car' ≠ 0 then bpCompare car car' else bpCompare cdr cdr'
  | .lst .., _ => 1
  | .str name arg args, u =>
    match u.functor with
    | none => if u.isList then -1 else 1
    | some (name', arg', args') =>
      -- `compare_struct_struct`, also where `u` is a big integer
      if args.length ≠ args'.length then
        if name = arrayName ∧ name' = arrayName then
          if bpCompare arg arg' ≠ 0 then bpCompare arg arg'
          else if bpCompareArgs args args' ≠ 0 then bpCompareArgs args args'
          else if args.length < args'.length then -1 else 1
        else compareVals (args.length + 1) (args'.length + 1)
      else if comalpha name name' ≠ 0 then comalpha name name'
      else if bpCompare arg arg' ≠ 0 then bpCompare arg arg'
      else bpCompareArgs args args'

def bpCompareArgs : List GroundTerm → List GroundTerm → ℤ
  | t :: ts, u :: us => if bpCompare t u ≠ 0 then bpCompare t u else bpCompareArgs ts us
  | _, _ => 0

end

/-- `f(a)` -/
def structTerm : GroundTerm := .str [102] (.atom [97]) []

/-! ## Names -/

/-- A name as `strcmp` sees it. -/
def cName (name : Name) : Name := name.takeWhile (· ≠ 0)

theorem cName_zero (as : Name) : cName (0 :: as) = [] := rfl

theorem cName_cons {a : Fin 256} (ha : a ≠ 0) (as : Name) : cName (a :: as) = a :: cName as := by
  unfold cName
  rw [takeWhile_cons, if_pos (decide_eq_true ha)]

/-- `v` is below, at or above 0 as `x` is below, at or above `y`. -/
def Follows {β : Type} [LT β] (v : ℤ) (x y : β) : Prop := (x = y → v = 0) ∧ (x < y → v < 0) ∧ (y < x → 0 < v)

theorem follows_nil (a : Fin 256) (as : Name) : Follows (-1) [] (a :: as) :=
  ⟨fun h => absurd h.symm (cons_ne_nil a as), fun _ => neg_one_lt_zero, fun h => absurd h (not_lt_nil _)⟩

theorem Follows.symm {β : Type} [LT β] {v : ℤ} {x y : β} (h : Follows v x y) : Follows (-v) y x := by
  obtain ⟨heq, hlt, hgt⟩ := h
  refine ⟨?_, ?_, ?_⟩
  · intro h
    rw [heq h.symm, neg_zero]
  · exact fun h => neg_neg_of_pos (hgt h)
  · exact fun h => neg_pos_of_neg (hlt h)

theorem strcmp_spec (n m : Name) : Follows (strcmp n m) (cName n) (cName m) := by
  have hself : Follows 0 ([] : Name) [] :=
    ⟨fun _ => rfl, fun h => absurd h (lt_irrefl _), fun h => absurd h (lt_irrefl _)⟩
  induction n generalizing m with
  | nil =>
    cases m with
    | nil => exact hself
    | cons b bs =>
      unfold strcmp
      split_ifs with hb
      · rw [hb, cName_zero]
        exact hself
      · rw [cName_cons hb]
        exact follows_nil b _
  | cons a as ih =>
    cases m with
    | nil =>
      unfold strcmp
      split_ifs with ha
      · rw [ha, cName_zero]
        exact hself
      · rw [cName_cons ha]
        exact (follows_nil a _).symm
    | cons b bs =>
      unfold strcmp
      by_cases hab : a = b
      · subst hab
        rw [if_neg (not_not.2 rfl)]
        split_ifs with ha
        · rw [ha, cName_zero, cName_zero]
          exact hself
        · rw [cName_cons ha, cName_cons ha]
          obtain ⟨heq, hlt, hgt⟩ := ih bs
          refine ⟨fun h => heq (List.cons.inj h).2, ?_, ?_⟩
          · exact fun h => hlt (cons_lt_cons_iff.1 h |>.resolve_left (lt_irrefl a)).2
          · exact fun h => hgt (cons_lt_cons_iff.1 h |>.resolve_left (lt_irrefl a)).2
      · rw [if_pos hab]
        by_cases ha : a = 0
        · subst ha
          rw [cName_zero, cName_cons (Ne.symm hab), if_neg (not_lt.2 (Fin.zero_le b))]
          exact follows_nil b _
        · by_cases hb : b = 0
          · subst hb
            rw [cName_zero, cName_cons ha, if_pos (Fin.pos_of_ne_zero ha)]
            exact (follows_nil a _).symm
          · rw [cName_cons ha, cName_cons hb]
            refine ⟨fun h => absurd (List.cons.inj h).1 hab, ?_, ?_⟩
            · intro h
              have hlt := (cons_lt_cons_iff.1 h).resolve_right fun h => hab h.1
              rw [if_neg (not_lt.2 hlt.le)]
              exact neg_one_lt_zero
            · intro h
              have hlt := (cons_lt_cons_iff.1 h).resolve_right fun h => hab h.1.symm
              rw [if_pos hlt]
              exact one_pos

theorem comalpha_spec (n m : Name) : Follows (comalpha n m) (cName n) (cName m) := by
  unfold comalpha
  split_ifs with h
  · subst h
    exact ⟨fun _ => rfl, fun h => absurd h (lt_irrefl _), fun h => absurd h (lt_irrefl _)⟩
  · exact strcmp_spec n m

end Picat.Order

/-! # Ground terms as lists of tokens -/

namespace Picat.Order
open LexCompare List

inductive Token
  | int (v : ℤ)
  | bigint (b : Bigint) (canon : (Term.bigint b).Canon)
  | atom (name : Name)
  | lst
  | str (arity : ℕ) (name : Name)
  | stop

def digitTokens : List ℕ → List Token
  | [] => [.atom nilName]
  | d :: ds => .lst :: .int d :: digitTokens ds

mutual

def tokens : GroundTerm → List Token
  | .int v => [.int v]
  | .bigint b canon => .bigint b canon :: .int b.signSize :: (digitTokens b.ds ++ [.stop])
  | .atom name => [.atom name]
  | .lst car cdr => .lst :: (tokens car ++ tokens cdr)
  | .str name arg args => .str (args.length + 1) name :: (tokens arg ++ tokensArgs args)

def tokensArgs : List GroundTerm → List Token
  | [] => [.stop]
  | t :: ts => tokens t ++ tokensArgs ts

end

/-- Two structures before their arguments are compared; two arrays of different sizes are equal here. -/
def headCompare (arity : ℕ) (name : Name) (arity' : ℕ) (name' : Name) : ℤ :=
  if arity ≠ arity' then (if name = arrayName ∧ name' = arrayName then 0 else compareVals arity arity')
  else comalpha name name'

def tokenCompare : Token → Token → ℤ
  | .stop, .stop => 0
  | .stop, _ => -1
  | _, .stop => 1
  | .int v, .int w => compareVals v w
  | .int _, .bigint b _ => if b.sign < 0 then 1 else -1
  | .int _, _ => -1
  | .atom _, .int _ => 1
  | .atom _, .bigint .. => 1
  | .atom name, .atom name' => comalpha name name'
  | .atom _, _ => -1
  | .bigint b _, .int _ => if b.sign < 0 then -1 else 1
  | .bigint b _, .bigint b' _ => bpCompareBigintBigint b b'
  | .bigint .., _ => -1
  | .lst, .lst => 0
  | .lst, _ => 1
  | .str arity name, .bigint .. => headCompare arity name 2 bigintName
  | .str arity name, .str arity' name' => headCompare arity name arity' name'
  | .str .., .lst => -1
  | .str .., _ => 1

section
variable {b b' : Bigint} (h : (Term.bigint b).Canon) (h' : (Term.bigint b').Canon)
include h h'

theorem bpCompareBigintBigint_eq : bpCompareBigintBigint b b' = Int.sign ((Term.bigint b).val - (Term.bigint b').val) :=
  (isBigint_of_canon h).compare (isBigint_of_canon h')

theorem eq_of_bpCompareBigintBigint (h0 : bpCompareBigintBigint b b' = 0) : b = b' := by
  rw [bpCompareBigintBigint_eq h h', Int.sign_eq_zero_iff_zero, sub_eq_zero] at h0
  have heq := Denotes.unique (⟨h, rfl⟩ : Denotes (.bigint b) _) ⟨h', h0.symm⟩
  exact Term.bigint.inj heq

end

/-! ## Terms as lists of tokens -/

theorem tokens_digits (ds : List ℕ) : tokens (GroundTerm.digits ds) = digitTokens ds := by
  induction ds with
  | nil => rfl
  | cons d ds ih =>
    unfold GroundTerm.digits digitTokens tokens
    rw [ih]
    rfl

theorem exists_tokens_eq (t : GroundTerm) : ∃ x X, tokens t = x :: X ∧ x ≠ .stop := by
  cases t <;> unfold tokens <;> exact ⟨_, _, rfl, Token.noConfusion⟩

theorem tokens_of_functor {t : GroundTerm} {name' : Name} {arg' : GroundTerm} {args' : List GroundTerm}
    (h : t.functor = some (name', arg', args')) :
    ∃ x, tokens t = x :: (tokens arg' ++ tokensArgs args') ∧
      ∀ arity name, tokenCompare (.str arity name) x = headCompare arity name (args'.length + 1) name' := by
  cases t with
  | bigint b canon =>
    unfold GroundTerm.functor at h
    obtain ⟨rfl, rfl, rfl⟩ := by simpa using h
    refine ⟨.bigint b canon, ?_, fun _ _ => rfl⟩
    unfold tokens tokensArgs tokensArgs
    rw [tokens_digits]
    rfl
  | str name arg args =>
    unfold GroundTerm.functor at h
    obtain ⟨rfl, rfl, rfl⟩ := by simpa using h
    exact ⟨_, rfl, fun _ _ => rfl⟩
  | int v => cases h
  | atom name => cases h
  | lst car cdr => cases h

theorem compareVals_self (v : ℤ) : compareVals v v = 0 := if_pos rfl

theorem compareVals_ne {v w : ℤ} (h : v ≠ w) : compareVals v w ≠ 0 := by
  unfold compareVals
  rw [if_neg h]
  split_ifs <;> decide

theorem comalpha_self (name : Name) : comalpha name name = 0 := if_pos rfl

theorem tokenCompare_self (x : Token) : tokenCompare x x = 0 := by
  cases x with
  | int v => exact compareVals_self v
  | bigint b canon =>
    show bpCompareBigintBigint b b = 0
    rw [bpCompareBigintBigint_eq canon canon, sub_self, Int.sign_zero]
  | atom name => exact comalpha_self name
  | str arity name =>
    show headCompare arity name arity name = 0
    unfold headCompare
    rw [if_neg (not_not.2 rfl), comalpha_self]
  | lst => rfl
  | stop => rfl

theorem tokenCompare_stop {x : Token} (hx : x ≠ .stop) : tokenCompare .stop x = -1 ∧ tokenCompare x .stop = 1 := by
  cases x with
  | stop => exact absurd rfl hx
  | _ => exact ⟨rfl, rfl⟩

theorem lexCompare_decided {x y : Token} {X Y : List Token} {v r : ℤ} (hc : tokenCompare x y = v) (hv : v ≠ 0) :
    lexCompare tokenCompare (x :: X) (y :: Y) = andThen v r := by
  rw [lexCompare_cons_of_ne (by rwa [hc]), hc, andThen_of_ne hv]

theorem lexCompare_tokensArgs {ts us : List GroundTerm} {X Y : List Token}
    (h : ∀ t ∈ ts, ∀ u X Y, lexCompare tokenCompare (tokens t ++ X) (tokens u ++ Y) =
      andThen (bpCompare t u) (lexCompare tokenCompare X Y)) :
    lexCompare tokenCompare (tokensArgs ts ++ X) (tokensArgs us ++ Y) =
      andThen (bpCompareArgs ts us) (if ts.length ≠ us.length then (if ts.length < us.length then -1 else 1)
        else lexCompare tokenCompare X Y) := by
  induction ts generalizing us with
  | nil =>
    cases us with
    | nil => rfl
    | cons u us =>
      obtain ⟨x, X', hx, hne⟩ := exists_tokens_eq u
      unfold tokensArgs bpCompareArgs
      rw [hx, andThen_zero, if_pos (by simp), if_pos (by simp)]
      exact lexCompare_cons_of_ne (by rw [(tokenCompare_stop hne).1]; decide) |>.trans (tokenCompare_stop hne).1
  | cons t ts ih =>
    cases us with
    | nil =>
      obtain ⟨x, X', hx, hne⟩ := exists_tokens_eq t
      unfold tokensArgs bpCompareArgs
      rw [hx, andThen_zero, if_pos (by simp), if_neg (by simp)]
      exact lexCompare_cons_of_ne (by rw [(tokenCompare_stop hne).2]; decide) |>.trans (tokenCompare_stop hne).2
    | cons u us =>
      unfold tokensArgs bpCompareArgs
      rw [append_assoc, append_assoc, h t mem_cons_self, ih fun t ht => h t (mem_cons_of_mem _ ht)]
      simp only [length_cons, Nat.add_lt_add_iff_right, ne_eq, Nat.add_right_cancel_iff]
      exact (andThen_assoc ..).symm

theorem bpCompare_str {name name' : Name} {arg arg' u : GroundTerm} {args args' : List GroundTerm}
    (hu : u.functor = some (name', arg', args')) (r : ℤ) :
    andThen (headCompare (args.length + 1) name (args'.length + 1) name') (andThen (bpCompare arg arg')
      (andThen (bpCompareArgs args args') (if args.length ≠ args'.length then
        (if args.length < args'.length then -1 else 1) else r))) = andThen (bpCompare (.str name arg args) u) r := by
  rw [bpCompare, hu]
  simp only
  unfold headCompare
  by_cases hlen : args.length = args'.length
  · rw [if_neg (by omega), if_neg (not_not.2 hlen), if_neg (not_not.2 hlen), ← andThen_assoc, ← andThen_assoc]
    congr 1
    exact andThen_assoc ..
  · rw [if_pos (by omega), if_pos hlen, if_pos hlen]
    by_cases harr : name = arrayName ∧ name' = arrayName
    · rw [if_pos harr, if_pos harr, andThen_zero]
      have hend : ∀ r, andThen (if args.length < args'.length then -1 else 1) r =
          if args.length < args'.length then -1 else 1 := fun r => andThen_of_ne (by split_ifs <;> decide)
      show _ = andThen (andThen (bpCompare arg arg') (andThen (bpCompareArgs args args') _)) r
      rw [andThen_assoc, andThen_assoc, hend]
    · rw [if_neg harr, if_neg harr]
      have hne : compareVals (args.length + 1) (args'.length + 1) ≠ 0 := compareVals_ne (by omega)
      push_cast
      rw [andThen_of_ne hne, andThen_of_ne hne]

theorem lexCompare_tokens_append (s t : GroundTerm) (X Y : List Token) :
    lexCompare tokenCompare (tokens s ++ X) (tokens t ++ Y) =
      andThen (bpCompare s t) (lexCompare tokenCompare X Y) := by
  have hsign : ∀ b : Bigint, (if b.sign < 0 then (1 : ℤ) else -1) ≠ 0 := fun b => by split_ifs <;> decide
  have hneg : (-1 : ℤ) ≠ 0 := by decide
  have hone : (1 : ℤ) ≠ 0 := by decide
  have hsign' : ∀ b : Bigint, (if b.sign < 0 then (-1 : ℤ) else 1) ≠ 0 := fun b => by split_ifs <;> decide
  induction s using GroundTerm.induct generalizing t X Y with
  | int v =>
    cases t with
    | int w => rfl
    | bigint b canon => exact lexCompare_decided rfl (hsign b)
    | atom name => exact lexCompare_decided rfl hneg
    | lst car cdr => exact lexCompare_decided rfl hneg
    | str name arg args => exact lexCompare_decided rfl hneg
  | bigint b canon =>
    cases t with
    | int w => exact lexCompare_decided rfl (hsign' b)
    | bigint b' canon' =>
      by_cases h0 : bpCompareBigintBigint b b' = 0
      · obtain rfl := eq_of_bpCompareBigintBigint canon canon' h0
        rw [lexCompare_append_self tokenCompare_self, bpCompare, h0, andThen_zero]
      · exact lexCompare_decided rfl h0
    | atom name => exact lexCompare_decided rfl hneg
    | lst car cdr => exact lexCompare_decided rfl hneg
    | str name arg args => exact lexCompare_decided rfl hneg
  | atom name =>
    cases t with
    | int w => exact lexCompare_decided rfl hone
    | bigint b canon => exact lexCompare_decided rfl hone
    | atom name' => rfl
    | lst car cdr => exact lexCompare_decided rfl hneg
    | str name arg args => exact lexCompare_decided rfl hneg
  | lst car cdr ihcar ihcdr =>
    cases t with
    | int w => exact lexCompare_decided rfl hone
    | bigint b canon => exact lexCompare_decided rfl hone
    | atom name => exact lexCompare_decided rfl hone
    | lst car' cdr' =>
      unfold tokens
      rw [cons_append, cons_append, lexCompare_cons_of_eq rfl, append_assoc, append_assoc, ihcar,
        ihcdr, ← andThen_assoc]
      rfl
    | str name arg args => exact lexCompare_decided rfl hone
  | str name arg args iharg ihargs =>
    cases hu : t.functor with
    | some f =>
      obtain ⟨name', arg', args'⟩ := f
      obtain ⟨x, hx, hhead⟩ := tokens_of_functor hu
      rw [hx, tokens, cons_append, cons_append, lexCompare, hhead, append_assoc, append_assoc,
        iharg, lexCompare_tokensArgs ihargs]
      exact bpCompare_str hu _
    | none =>
      cases t with
      | int w => exact lexCompare_decided rfl hone
      | atom name => exact lexCompare_decided rfl hone
      | lst car cdr => exact lexCompare_decided rfl hneg
      | bigint b canon => cases hu
      | str name arg args => cases hu

theorem lexCompare_tokens (s t : GroundTerm) : lexCompare tokenCompare (tokens s) (tokens t) = bpCompare s t := by
  have h := lexCompare_tokens_append s t [] []
  rw [append_nil, append_nil] at h
  rw [h]
  unfold lexCompare andThen
  split_ifs with h0
  · rfl
  · exact (not_not.1 h0).symm

theorem tokensArgs_inj {ts us : List GroundTerm} {X Y : List Token} (hlen : ts.length = us.length)
    (h : ∀ t ∈ ts, ∀ u X Y, tokens t ++ X = tokens u ++ Y → t = u ∧ X = Y)
    (heq : tokensArgs ts ++ X = tokensArgs us ++ Y) : ts = us ∧ X = Y := by
  induction ts generalizing us with
  | nil =>
    obtain rfl := length_eq_zero_iff.1 hlen.symm
    exact ⟨rfl, append_cancel_left heq⟩
  | cons t ts ih =>
    cases us with
    | nil => cases hlen
    | cons u us =>
      unfold tokensArgs at heq
      rw [append_assoc, append_assoc] at heq
      obtain ⟨rfl, htail⟩ := h t mem_cons_self u _ _ heq
      obtain ⟨rfl, hX⟩ := ih (Nat.succ_injective hlen) (fun t ht => h t (mem_cons_of_mem _ ht)) htail
      exact ⟨rfl, hX⟩

theorem tokens_append_inj (s t : GroundTerm) (X Y : List Token) (h : tokens s ++ X = tokens t ++ Y) :
    s = t ∧ X = Y := by
  induction s using GroundTerm.induct generalizing t X Y with
  | int v => cases t <;> simp_all [tokens]
  | bigint b canon =>
    cases t with
    | bigint b' canon' =>
      unfold tokens at h
      obtain ⟨hhead, htail⟩ := List.cons.inj h
      obtain rfl := Token.bigint.inj hhead
      exact ⟨rfl, append_cancel_left htail⟩
    | _ => simp [tokens] at h
  | atom name => cases t <;> simp_all [tokens]
  | lst car cdr ihcar ihcdr =>
    cases t with
    | lst car' cdr' =>
      unfold tokens at h
      rw [cons_append, cons_append, append_assoc, append_assoc] at h
      obtain ⟨rfl, hcdr⟩ := ihcar _ _ _ (List.cons.inj h).2
      obtain ⟨rfl, hX⟩ := ihcdr _ _ _ hcdr
      exact ⟨rfl, hX⟩
    | _ => simp [tokens] at h
  | str name arg args iharg ihargs =>
    cases t with
    | str name' arg' args' =>
      unfold tokens at h
      rw [cons_append, cons_append, append_assoc, append_assoc] at h
      obtain ⟨hhead, htail⟩ := List.cons.inj h
      obtain ⟨hlen, rfl⟩ := Token.str.inj hhead
      obtain ⟨rfl, hargs⟩ := iharg _ _ _ htail
      obtain ⟨rfl, hX⟩ := tokensArgs_inj (Nat.succ_injective hlen) ihargs hargs
      exact ⟨rfl, hX⟩
    | _ => simp [tokens] at h

theorem tokens_injective : Function.Injective tokens := fun s t h =>
  (tokens_append_inj s t [] [] (by rw [h])).1

/-! ## The order of the tokens -/

/-- Big integers are below or above all integers of one word, by their signs. -/
def Token.rank : Token → ℕ
  | .stop => 0
  | .bigint b _ => if b.sign < 0 then 1 else 3
  | .int _ => 2
  | .atom _ => 4
  | .str .. => 5
  | .lst => 6

def Token.content : Token → ℤ ×ₗ Name
  | .bigint b _ => toLex ((Term.bigint b).val, [])
  | .int v => toLex (v, [])
  | .atom name => toLex (0, cName name)
  | .str arity name => toLex ((arity : ℤ), cName name)
  | _ => toLex (0, [])

def Token.key (x : Token) : ℕ ×ₗ ℤ ×ₗ Name := toLex (x.rank, x.content)

def IsArray : Token → Prop
  | .str _ name => name = arrayName
  | _ => False

/-- A structure whose arity and name are not above those of `$bigint(SignSize,Ds)`, and a big integer. -/
def BelowBigint : Token → Token → Prop
  | .str arity name, .bigint .. => headCompare arity name 2 bigintName ≤ 0
  | _, _ => False

theorem compareVals_spec (v w : ℤ) : Follows (compareVals v w) v w := by
  unfold compareVals Follows
  split_ifs <;> omega

theorem headCompare_spec {arity arity' : ℕ} {name name' : Name} (h : ¬ (name = arrayName ∧ name' = arrayName)) :
    Follows (headCompare arity name arity' name') (toLex ((arity : ℤ), cName name)) (toLex ((arity' : ℤ), cName name')) := by
  unfold headCompare
  rw [if_neg h]
  unfold Follows
  simp only [Prod.Lex.toLex_lt_toLex, EmbeddingLike.apply_eq_iff_eq, Prod.mk.injEq]
  by_cases ha : arity = arity'
  · subst ha
    obtain ⟨heq, hlt, hgt⟩ := comalpha_spec name name'
    rw [if_neg (not_not.2 rfl)]
    refine ⟨fun h => heq h.2, ?_, ?_⟩
    · rintro (h | h)
      · exact absurd h (lt_irrefl _)
      · exact hlt h.2
    · rintro (h | h)
      · exact absurd h (lt_irrefl _)
      · exact hgt h.2
  · obtain ⟨-, hlt, hgt⟩ := compareVals_spec arity arity'
    rw [if_pos ha]
    refine ⟨fun h => absurd (by exact_mod_cast h.1) ha, ?_, ?_⟩
    · rintro (h | h)
      · exact hlt h
      · exact absurd (by exact_mod_cast h.1) ha
    · rintro (h | h)
      · exact hgt h
      · exact absurd (by exact_mod_cast h.1.symm) ha

theorem bpCompareBigintBigint_of_signs {b b' : Bigint} (h : b.sign < 0) (h' : ¬ b'.sign < 0) :
    bpCompareBigintBigint b b' = -1 ∧ bpCompareBigintBigint b' b = 1 := by
  rcases IsBigint.sign_cases b' with hs | hs
  · unfold bpCompareBigintBigint
    exact ⟨by rw [if_neg (by omega), if_pos (by omega)], if_pos (by omega)⟩
  · omega

theorem tokenCompare_of_rank_lt {x y : Token} (h : x.rank < y.rank) : tokenCompare x y < 0 := by
  cases x with
  | bigint b canon =>
    cases y with
    | bigint b' canon' =>
      simp only [Token.rank] at h
      simp only [tokenCompare]
      split_ifs at h with hb hb' <;> first | omega | skip
      rw [(bpCompareBigintBigint_of_signs hb hb').1]
      exact neg_one_lt_zero
    | _ =>
      simp only [Token.rank] at h
      simp only [tokenCompare]
      (try split_ifs at *) <;> omega
  | _ => cases y <;> simp only [Token.rank] at h <;> simp only [tokenCompare] <;> (try split_ifs at *) <;> omega

theorem tokenCompare_of_lt_rank {x y : Token} (h : y.rank < x.rank)
    (hplain : ∀ b canon, y = .bigint b canon → x.rank ≠ 5) : 0 < tokenCompare x y := by
  cases x with
  | bigint b canon =>
    cases y with
    | bigint b' canon' =>
      simp only [Token.rank] at h
      simp only [tokenCompare]
      split_ifs at h with hb hb' <;> first | omega | skip
      rw [(bpCompareBigintBigint_of_signs hb hb').2]
      exact one_pos
    | _ =>
      simp only [Token.rank] at h
      simp only [tokenCompare]
      (try split_ifs at *) <;> omega
  | str arity name =>
    cases y with
    | bigint b canon => exact absurd rfl (hplain b canon rfl)
    | _ =>
      simp only [Token.rank] at h
      simp only [tokenCompare]
      omega
  | _ => cases y <;> simp only [Token.rank] at h <;> simp only [tokenCompare] <;> (try split_ifs at *) <;> omega

theorem follows_self {β : Type} [Preorder β] (x : β) : Follows 0 x x :=
  ⟨fun _ => rfl, fun h => absurd h (lt_irrefl _), fun h => absurd h (lt_irrefl _)⟩

theorem Follows.pair {v : ℤ} {a b : ℤ} (h : Follows v a b) (n : Name) : Follows v (toLex (a, n)) (toLex (b, n)) := by
  obtain ⟨heq, hlt, hgt⟩ := h
  refine ⟨fun h => heq (Prod.mk.inj (toLex.injective h)).1, ?_, ?_⟩
  · intro h
    rcases Prod.Lex.toLex_lt_toLex.1 h with h | h
    · exact hlt h
    · exact absurd h.2 (lt_irrefl _)
  · intro h
    rcases Prod.Lex.toLex_lt_toLex.1 h with h | h
    · exact hgt h
    · exact absurd h.2 (lt_irrefl _)

theorem exists_str_of_rank {x : Token} (h : x.rank = 5) : ∃ arity name, x = .str arity name := by
  cases x with
  | str arity name => exact ⟨arity, name, rfl⟩
  | bigint b canon =>
    simp only [Token.rank] at h
    split_ifs at h <;> omega
  | _ => simp [Token.rank] at h

theorem tokenCompare_of_arrays {x y : Token} (hx : IsArray x) (hy : IsArray y) : tokenCompare x y = 0 := by
  cases x with
  | str arity name =>
    cases y with
    | str arity' name' =>
      obtain rfl : name = arrayName := hx
      obtain rfl : name' = arrayName := hy
      show headCompare arity arrayName arity' arrayName = 0
      unfold headCompare
      rw [comalpha_self, if_pos (⟨rfl, rfl⟩ : arrayName = arrayName ∧ arrayName = arrayName)]
      exact ite_self 0
    | _ => exact absurd hy id
  | _ => exact absurd hx id

theorem tokenCompare_content {x y : Token} (h : x.rank = y.rank) (harr : ¬ (IsArray x ∧ IsArray y)) :
    Follows (tokenCompare x y) x.content y.content := by
  cases x with
  | int v =>
    cases y with
    | int w => exact (compareVals_spec v w).pair []
    | bigint b canon =>
      simp only [Token.rank] at h
      split_ifs at h <;> omega
    | _ => simp [Token.rank] at h
  | bigint b canon =>
    cases y with
    | bigint b' canon' =>
      refine Follows.pair ?_ []
      simp only [tokenCompare]
      rw [bpCompareBigintBigint_eq canon canon']
      refine ⟨fun h => by rw [h, sub_self, Int.sign_zero], ?_, ?_⟩
      · exact fun h => Int.sign_neg_iff.2 (by omega)
      · exact fun h => Int.sign_pos_iff.2 (by omega)
    | _ =>
      simp only [Token.rank] at h
      split_ifs at h <;> omega
  | atom name =>
    cases y with
    | atom name' =>
      obtain ⟨heq, hlt, hgt⟩ := comalpha_spec name name'
      refine ⟨fun h => heq (Prod.mk.inj (toLex.injective h)).2, ?_, ?_⟩
      · intro h
        exact hlt ((Prod.Lex.toLex_lt_toLex.1 h).resolve_left (lt_irrefl _)).2
      · intro h
        exact hgt ((Prod.Lex.toLex_lt_toLex.1 h).resolve_left (lt_irrefl _)).2
    | bigint b canon =>
      simp only [Token.rank] at h
      split_ifs at h <;> omega
    | _ => simp [Token.rank] at h
  | str arity name =>
    cases y with
    | str arity' name' => exact headCompare_spec harr
    | bigint b canon =>
      simp only [Token.rank] at h
      split_ifs at h <;> omega
    | _ => simp [Token.rank] at h
  | lst =>
    cases y with
    | lst => exact follows_self _
    | bigint b canon =>
      simp only [Token.rank] at h
      split_ifs at h <;> omega
    | _ => simp [Token.rank] at h
  | stop =>
    cases y with
    | stop => exact follows_self _
    | bigint b canon =>
      simp only [Token.rank] at h
      split_ifs at h
    | _ => simp [Token.rank] at h

theorem keys_token : Keys tokenCompare Token.key IsArray BelowBigint where
  eq x y h := by
    obtain ⟨hrank, hcontent⟩ := Prod.mk.inj (toLex.injective h)
    by_cases harr : IsArray x ∧ IsArray y
    · exact tokenCompare_of_arrays harr.1 harr.2
    · exact (tokenCompare_content hrank harr).1 hcontent
  lt x y h harr := by
    rcases Prod.Lex.toLex_lt_toLex.1 h with hrank | ⟨hrank, hcontent⟩
    · exact tokenCompare_of_rank_lt hrank
    · exact (tokenCompare_content hrank harr).2.1 hcontent
  gt x y h harr hbad := by
    rcases Prod.Lex.toLex_lt_toLex.1 h with hrank | ⟨hrank, hcontent⟩
    · by_cases hplain : ∀ b canon, y = .bigint b canon → x.rank ≠ 5
      · exact tokenCompare_of_lt_rank hrank hplain
      · push Not at hplain
        obtain ⟨b, canon, rfl, h5⟩ := hplain
        obtain ⟨arity, name, rfl⟩ := exists_str_of_rank h5
        exact not_le.1 hbad
    · exact (tokenCompare_content hrank.symm harr).2.2 hcontent
  eq_of_loose x y hx hy := tokenCompare_of_arrays hx hy
  of_bad x y h := by
    cases x with
    | str arity name =>
      cases y with
      | bigint b canon =>
        refine ⟨Prod.Lex.toLex_lt_toLex.2 (.inl ?_), fun h => h.2, h⟩
        simp only [Token.rank]
        split_ifs <;> decide
      | _ => exact absurd h id
    | _ => exact absurd h id

theorem totalOn_bpCompare_iff (T : Set GroundTerm) :
    TotalOn bpCompare T ↔ TotalOn (lexCompare tokenCompare) (tokens '' T) := by
  constructor
  · intro h
    refine ⟨?_, ?_, ?_⟩
    · rintro _ ⟨s, hs, rfl⟩ _ ⟨t, ht, rfl⟩
      rw [lexCompare_tokens, tokens_injective.eq_iff]
      exact h.eq_zero s hs t ht
    · rintro _ ⟨s, hs, rfl⟩ _ ⟨t, ht, rfl⟩
      rw [lexCompare_tokens, lexCompare_tokens]
      exact h.antisymm s hs t ht
    · rintro _ ⟨s, hs, rfl⟩ _ ⟨t, ht, rfl⟩ _ ⟨u, hu, rfl⟩
      rw [lexCompare_tokens, lexCompare_tokens, lexCompare_tokens]
      exact h.trans s hs t ht u hu
  · intro h
    have hmem : ∀ s ∈ T, tokens s ∈ tokens '' T := fun s hs => Set.mem_image_of_mem _ hs
    refine ⟨?_, ?_, ?_⟩
    · intro s hs t ht
      rw [← lexCompare_tokens, ← tokens_injective.eq_iff]
      exact h.eq_zero _ (hmem s hs) _ (hmem t ht)
    · intro s hs t ht
      rw [← lexCompare_tokens, ← lexCompare_tokens]
      exact h.antisymm _ (hmem s hs) _ (hmem t ht)
    · intro s hs t ht u hu
      rw [← lexCompare_tokens, ← lexCompare_tokens, ← lexCompare_tokens]
      exact h.trans _ (hmem s hs) _ (hmem t ht) _ (hmem u hu)

/-- On a set of ground terms, `bp_compare` is a total order just when no two terms of the set differ in nothing but what
follows a byte 0 in their names; at the first place where two of them differ, there is never a big integer in one and a
structure with a symbol (or, for the symbol `$bigint/2` up to a byte 0, with arguments) not above its own in the other;
and there are no three of them with two arrays and another structure at one place, such that the symbol of the structure
is between those of the arrays and the longer array is below the shorter one. -/
theorem bpCompare_total_iff (T : Set GroundTerm) : TotalOn bpCompare T ↔
      (∀ s ∈ T, ∀ t ∈ T, List.Forall₂ (Matches Token.key IsArray) (tokens s) (tokens t) → s = t) ∧
      (∀ s ∈ T, ∀ t ∈ T, ¬ Wrong tokenCompare Token.key IsArray BelowBigint (tokens s) (tokens t)) ∧
      (∀ s ∈ T, ∀ t ∈ T, ∀ u ∈ T, ¬ Around tokenCompare Token.key IsArray (tokens s) (tokens t) (tokens u)) := by
  rw [totalOn_bpCompare_iff, keys_token.lexCompare_total_iff]
  simp only [Set.forall_mem_image, tokens_injective.eq_iff]

/-- `2^70` -/
def bigTerm : GroundTerm := .bigint ⟨3, [0, 0, 16384]⟩ (by
  refine ⟨rfl, le_refl 3, ?_, ?_⟩
  · unfold Digits.Valid
    decide
  · intro h
    show (16384 : ℕ) ≠ 0
    decide)

/-- Not on all ground terms: `f(a)` is below `2^70`, and `2^70` below `f(a)`; `f(a,b)` is below `{1,1}`, this below `{2}`,
and this below `f(a,b)`; and the names of the length 0 and of one byte 0 compare as equal. -/
theorem bpCompare_not_total : ¬ TotalOn bpCompare Set.univ ∧
    (bpCompare structTerm bigTerm = -1 ∧ bpCompare bigTerm structTerm = -1) ∧
    (bpCompare (.str [102] (.atom [97]) [.atom [98]]) (.str arrayName (.int 1) [.int 1]) = -1 ∧
      bpCompare (.str arrayName (.int 1) [.int 1]) (.str arrayName (.int 2) []) = -1 ∧
      bpCompare (.str [102] (.atom [97]) [.atom [98]]) (.str arrayName (.int 2) []) = 1) ∧
    bpCompare (.atom []) (.atom [0]) = 0 := by
  have h : bpCompare structTerm bigTerm = -1 ∧ bpCompare bigTerm structTerm = -1 := ⟨by decide, by decide⟩
  refine ⟨?_, h, ⟨by decide, by decide, by decide⟩, by decide⟩
  intro htotal
  have hsign := htotal.antisymm structTerm trivial bigTerm trivial
  rw [h.1, h.2] at hsign
  exact absurd hsign (by decide)

/-! ## Sorting -/

open Classical in
/-- Where the comparison is a total order, arrays sort to the same array just when they have the same terms. -/
theorem qsortTermArray_eq_iff_perm (T : Set GroundTerm) (h : TotalOn bpCompare T) (arr1 arr2 : List T)
    (hlen1 : arr1.length < 2 ^ 63) (hlen2 : arr2.length < 2 ^ 63) : ∃ arr,
      qsortTermArray (fun s t : T => bpCompare s t) arr1 = .ok arr ∧ arr.Perm arr1 ∧
      arr.Pairwise (fun s t : T => bpCompare s t ≤ 0) ∧
      (qsortTermArray (fun s t : T => bpCompare s t) arr2 = .ok arr ↔ arr2.Perm arr1) := by
  have C : Comparison fun s t : T => bpCompare s t := by
    refine ⟨fun s t => ?_, fun s t u => h.trans s s.2 t t.2 u u.2⟩
    rw [← Int.sign_nonpos_iff, h.antisymm s s.2 t t.2, neg_nonpos, Int.sign_nonneg_iff]
  obtain ⟨arr, hrun1, hperm1, hsorted1⟩ := qsortTermArray_sorts C arr1 hlen1
  obtain ⟨arr', hrun2, hperm2, hsorted2⟩ := qsortTermArray_sorts C arr2 hlen2
  refine ⟨arr, hrun1, hperm1, hsorted1, fun heq => ?_, fun hperm => ?_⟩
  · obtain rfl := Except.ok.inj (hrun2.symm.trans heq)
    exact hperm2.symm.trans hperm1
  · have hanti : ∀ s t : T, s ∈ arr' → t ∈ arr → bpCompare s t ≤ 0 → bpCompare t s ≤ 0 → s = t := fun s t _ _ hst hts =>
      Subtype.ext ((h.eq_zero s s.2 t t.2).1 (hst.antisymm ((C.swap t s).1 hts)))
    rw [hrun2, Perm.eq_of_pairwise hanti hsorted2 hsorted1 (hperm2.trans (hperm.trans hperm1.symm))]

theorem totalOn_int : TotalOn bpCompare (Set.range GroundTerm.int) := by
  constructor <;> simp only [Set.forall_mem_range, bpCompare, compareVals, GroundTerm.int.injEq]
  · grind
  · intro v w
    split_ifs <;> first | rfl | omega
  · grind

open Classical in
theorem qsortTermArray_eq_iff_perm_two : ∃ arr, qsortTermArray (fun s t : Set.range GroundTerm.int => bpCompare s t)
    [⟨.int 2, 2, rfl⟩, ⟨.int 1, 1, rfl⟩] = .ok arr ∧ arr.length = 2 := by
  obtain ⟨arr, hrun, hperm, -⟩ := qsortTermArray_eq_iff_perm _ totalOn_int [⟨.int 2, 2, rfl⟩, ⟨.int 1, 1, rfl⟩] []
    (by decide) (by decide)
  exact ⟨arr, hrun, hperm.length_eq⟩

end Picat.Order
