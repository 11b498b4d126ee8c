import Picat.Token.Qname

/-!
# Terms as strings

`bp_term_2_string` of the C interface, which appends the text of a term to a buffer that it doubles.

* `append_clean`, `append_dirty` : what one piece does to the buffer and its counter.
-/

namespace Picat

open List

/-! ## Terms -/

/-- The record of a symbol, whose `length` has 16 bits. -/
structure SymRec where
  name : List Char
  arity : Nat
  length_lt : (validText name).length < 2 ^ 16

/-- The functor of a structure; that of two arguments with the name `.` is for lists. -/
structure StrSym extends SymRec where
  arity_pos : 0 < arity
  not_list : ¬ (name = ['.'] ∧ arity = 2)

inductive BpTerm
  | int (n : Int)
  | atom (sym : SymRec)
  | list (car cdr : BpTerm)
  | str (sym : StrSym) (args : Fin sym.arity → BpTerm)

namespace BpTerm

def size : BpTerm → Nat
  | int _ => 1
  | atom _ => 1
  | list car cdr => car.size + cdr.size + 1
  | str _ args => ∑ i, (args i).size + 1

theorem size_arg (sym : StrSym) (args : Fin sym.arity → BpTerm) (i : Fin sym.arity) :
    (args i).size < (str sym args).size := by
  have hle := Finset.single_le_sum (f := fun i => (args i).size) (fun _ _ => Nat.zero_le _) (Finset.mem_univ i)
  rw [size]
  exact Nat.lt_succ_of_le hle

def isNil : BpTerm → Bool
  | atom sym => sym.name = ['[', ']']
  | _ => false

def isList : BpTerm → Bool
  | list _ _ => true
  | _ => false

end BpTerm

/-! ## The buffer -/

/-- `malloc`, with what is in the memory that it gives. -/
structure Malloc where
  bytes : Nat → List UInt8
  length_bytes : ∀ n, (bytes n).length = n

structure BpStrBag where
  size : Nat
  pos : Nat
  buf : List UInt8
  size_pos : 0 < size
  length_buf : buf.length = size

def cString (bytes : List UInt8) : List UInt8 := bytes.takeWhile (· ≠ 0)

theorem cString_zero (bytes : List UInt8) : cString (0 :: bytes) = [] := rfl

variable {b : UInt8} {bytes : List UInt8}

theorem cString_cons {b : UInt8} (h : b ≠ 0) (bytes : List UInt8) : cString (b :: bytes) = b :: cString bytes :=
  takeWhile_cons_of_pos (decide_eq_true h)

theorem mem_of_mem_cons_zero (hb : b ≠ 0) (h : 0 ∈ b :: bytes) : 0 ∈ bytes :=
  (mem_cons.1 h).resolve_left fun h0 => hb h0.symm

theorem length_cString_lt (h : 0 ∈ bytes) : (cString bytes).length < bytes.length := by
  induction bytes with
  | nil => cases h
  | cons b bytes ih =>
    by_cases hb : b = 0
    · rw [hb, cString_zero]
      exact Nat.succ_pos _
    · rw [cString_cons hb]
      exact Nat.succ_lt_succ (ih (mem_of_mem_cons_zero hb h))

theorem cString_append {text : List UInt8} (h : 0 ∉ text) (junk : List UInt8) :
    cString (text ++ junk) = text ++ cString junk :=
  takeWhile_append_of_pos fun _ hb => decide_eq_true fun h0 => h (h0 ▸ hb)

theorem cString_append_mem {text : List UInt8} (h : 0 ∈ text) (junk : List UInt8) : cString (text ++ junk) = cString text := by
  induction text with
  | nil => cases h
  | cons b text ih =>
    by_cases hb : b = 0
    · rw [hb, cons_append, cString_zero, cString_zero]
    · rw [cons_append, cString_cons hb, cString_cons hb, ih (mem_of_mem_cons_zero hb h)]

namespace BpStrBag

/-- The bytes are written from `pos` on, and `len` is added to it; `none` is a write outside the buffer. -/
def write (bag : BpStrBag) (bytes : List UInt8) (len : Nat) : Option BpStrBag :=
  if h : bag.pos + bytes.length ≤ bag.size then
    some {
      size := bag.size
      pos := bag.pos + len
      buf := bag.buf.take bag.pos ++ (bytes ++ bag.buf.drop (bag.pos + bytes.length))
      size_pos := bag.size_pos
      length_buf := by
        have hlen := bag.length_buf
        rw [length_append, length_append, length_take, length_drop]
        omega }
  else none

end BpStrBag

section
variable (malloc : Malloc)

def initializeBpStrBag : BpStrBag where
  size := 50
  pos := 0
  buf := malloc.bytes 50
  size_pos := by decide
  length_buf := malloc.length_bytes 50

/-- `expand_bp_str_bag`: the string in the buffer goes into one of twice its size; `none` is a read outside the buffer. -/
def expandBpStrBag (bag : BpStrBag) : Option BpStrBag :=
  if h : 0 ∈ bag.buf then
    some {
      size := bag.size * 2
      pos := bag.pos
      buf := cString bag.buf ++ 0 :: (malloc.bytes (bag.size * 2)).drop ((cString bag.buf).length + 1)
      size_pos := Nat.mul_pos bag.size_pos (by decide)
      length_buf := by
        have hlt := length_cString_lt h
        have hlen := bag.length_buf
        rw [length_append, length_cons, length_drop, malloc.length_bytes]
        omega }
  else none

variable {malloc} in
theorem expand_spec {bag bag' : BpStrBag} (h : expandBpStrBag malloc bag = some bag') :
    0 ∈ bag.buf ∧ bag'.size = bag.size * 2 ∧ bag'.pos = bag.pos ∧ ∃ junk, bag'.buf = cString bag.buf ++ 0 :: junk := by
  unfold expandBpStrBag at h
  split_ifs at h with hmem
  cases h
  exact ⟨hmem, rfl, rfl, _, rfl⟩

/-- `strcpy_add_quote`: the bytes that it writes, and what it returns. -/
def strcpyAddQuote (str : List UInt8) : List UInt8 × Nat :=
  (39 :: (str.flatMap quotedByte ++ [39, 0]), str.length + 2 + 2 * str.countP fun b => (escapeOf b).isSome)

/-- `append_str_to_solution_bag`, on a string with its length. -/
def appendStrToSolutionBag (str : List UInt8) (checkQuote : Bool) (bag : BpStrBag) : Option BpStrBag :=
  if bag.size ≤ bag.pos + str.length + 10 then
    match _h : expandBpStrBag malloc bag with
    | none => none
    | some bag' => appendStrToSolutionBag str checkQuote bag'
  else if checkQuote && singleQuoteNeeded str then bag.write (strcpyAddQuote str).1 (strcpyAddQuote str).2
  else bag.write (cString str ++ [0]) str.length
termination_by bag.pos + str.length + 11 - bag.size
decreasing_by
  obtain ⟨-, hsize, hpos, -⟩ := expand_spec _h
  have := bag.size_pos
  omega

end

/-! ## The writer -/

def decimalDigits (n : Nat) : List Nat := if n = 0 then [0] else (Nat.digits 10 n).reverse

/-- `%d` -/
def formatD (n : Int) : List UInt8 :=
  (if n < 0 then [45] else []) ++ (decimalDigits n.natAbs).map digitByte

def toInt32 (n : Int) : Int := n.bmod (2 ^ 32)

section
variable (malloc : Malloc)

mutual
def auxTerm2StringTerm : BpTerm → BpStrBag → Option BpStrBag
  | .int n, bag => appendStrToSolutionBag malloc (formatD (toInt32 n)) false bag
  | .atom sym, bag => appendStrToSolutionBag malloc (validText sym.name) true bag
  | .list car cdr, bag => do
    let bag ← appendStrToSolutionBag malloc [91] false bag
    auxTerm2StringList car cdr bag
  | .str sym args, bag => do
    let bag ← appendStrToSolutionBag malloc (validText sym.name) true bag
    let bag ← appendStrToSolutionBag malloc [40] false bag
    let bag ← (List.finRange sym.arity).foldlM (fun bag i => do
      let bag ← auxTerm2StringTerm (args i) bag
      if i + 1 < sym.arity then appendStrToSolutionBag malloc [44] false bag else pure bag) bag
    appendStrToSolutionBag malloc [41] false bag
termination_by t => (t.size, 1)
decreasing_by
  · exact Prod.Lex.right _ Nat.zero_lt_one
  · exact Prod.Lex.left _ _ (BpTerm.size_arg _ _ _)

/-- `aux_term_2_string_list`, on the two words of a cell. -/
def auxTerm2StringList (car cdr : BpTerm) (bag : BpStrBag) : Option BpStrBag := do
  let bag ← auxTerm2StringTerm car bag
  match cdr with
  | .list car' cdr' =>
    let bag ← appendStrToSolutionBag malloc [44] false bag
    auxTerm2StringList car' cdr' bag
  | cdr =>
    if !cdr.isNil then
      let bag ← appendStrToSolutionBag malloc [124] false bag
      let bag ← auxTerm2StringTerm cdr bag
      appendStrToSolutionBag malloc [93] false bag
    else appendStrToSolutionBag malloc [93] false bag
termination_by (car.size + cdr.size + 1, 0)
decreasing_by
  · exact Prod.Lex.left _ _ (by omega)
  · exact Prod.Lex.left _ _ (by rw [BpTerm.size]; omega)
  · exact Prod.Lex.left _ _ (by omega)
end

/-- The buffer at the begin of `bp_term_2_string`, from the one that the calls before it leave; none is `NULL`. -/
def startBag (bag : Option BpStrBag) : BpStrBag := { bag.getD (initializeBpStrBag malloc) with pos := 0 }

def bpTerm2String (bag : Option BpStrBag) (t : BpTerm) : Option BpStrBag := auxTerm2StringTerm malloc t (startBag malloc bag)

end

/-! ## Notation -/

inductive Punct
  | lpar | rpar | comma | lbrack | rbrack | bar
deriving DecidableEq

def Punct.byte : Punct → UInt8
  | lpar => 40
  | rpar => 41
  | comma => 44
  | lbrack => 91
  | rbrack => 93
  | bar => 124

/-- A number, a name or a punctuation of the notation of a term. -/
inductive Piece
  | int (n : Int)
  | name (s : List Char)
  | punct (c : Punct)
deriving DecidableEq

namespace Piece

def str : Piece → List UInt8
  | int n => formatD (toInt32 n)
  | name s => validText s
  | punct c => [c.byte]

def checkQuote : Piece → Bool
  | name _ => true
  | _ => false

end Piece

def separated : List (List Piece) → List Piece
  | [] => []
  | [ps] => ps
  | ps :: qs :: pss => ps ++ .punct .comma :: separated (qs :: pss)

namespace BpTerm

/-- What stands behind the elements of a list whose tail is no list. -/
def barred (ps : List Piece) : List Piece := .punct .bar :: (ps ++ [.punct .rbrack])

/-- The notation of a term, alone and behind the elements of a list. -/
def parts : BpTerm → List Piece × List Piece
  | int n => ([.int n], barred [.int n])
  | atom sym => ([.name sym.name], if (atom sym).isNil then [.punct .rbrack] else barred [.name sym.name])
  | list car cdr =>
    (.punct .lbrack :: (car.parts.1 ++ cdr.parts.2), .punct .comma :: (car.parts.1 ++ cdr.parts.2))
  | str sym args =>
    let ps := Piece.name sym.name :: .punct .lpar :: (separated (List.ofFn fun i => (args i).parts.1) ++ [.punct .rpar])
    (ps, barred ps)

def pieces (t : BpTerm) : List Piece := t.parts.1

def rest (t : BpTerm) : List Piece := t.parts.2

theorem pieces_list (car cdr : BpTerm) : (list car cdr).pieces = .punct .lbrack :: (car.pieces ++ cdr.rest) := rfl

theorem rest_list (car cdr : BpTerm) : (list car cdr).rest = .punct .comma :: (car.pieces ++ cdr.rest) := rfl

theorem pieces_str (sym : StrSym) (args : Fin sym.arity → BpTerm) :
    (str sym args).pieces = .name sym.name :: .punct .lpar ::
      (separated (List.ofFn fun i => (args i).pieces) ++ [.punct .rpar]) := rfl

theorem rest_nil {t : BpTerm} (h : t.isNil = true) : t.rest = [.punct .rbrack] := by
  cases t with
  | atom sym => exact if_pos h
  | int n => cases h
  | list car cdr => cases h
  | str sym args => cases h

theorem rest_tail {t : BpTerm} (h : t.isNil = false) (hlist : t.isList = false) : t.rest = barred t.pieces := by
  cases t with
  | atom sym => exact if_neg (by rw [h]; decide)
  | int n => rfl
  | list car cdr => cases hlist
  | str sym args => rfl

end BpTerm

section
variable (malloc : Malloc)

def appendPiece (bag : BpStrBag) (p : Piece) : Option BpStrBag := appendStrToSolutionBag malloc p.str p.checkQuote bag

def appendPieces (bag : BpStrBag) (ps : List Piece) : Option BpStrBag := ps.foldlM (appendPiece malloc) bag

theorem appendPieces_cons (bag : BpStrBag) (p : Piece) (ps : List Piece) :
    appendPieces malloc bag (p :: ps) = (appendPiece malloc bag p).bind fun bag => appendPieces malloc bag ps :=
  foldlM_cons

theorem appendPieces_singleton (bag : BpStrBag) (p : Piece) : appendPieces malloc bag [p] = appendPiece malloc bag p :=
  Option.bind_fun_some _

theorem appendPieces_append (bag : BpStrBag) (ps qs : List Piece) :
    appendPieces malloc bag (ps ++ qs) = (appendPieces malloc bag ps).bind fun bag => appendPieces malloc bag qs :=
  foldlM_append

theorem appendArgs_eq {n : Nat} (pss : Fin n → List Piece) (bag : BpStrBag) : ((List.finRange n).foldlM (fun bag i => do
      let bag ← appendPieces malloc bag (pss i)
      if (i : Nat) + 1 < n then appendStrToSolutionBag malloc [44] false bag else pure bag) bag) =
    appendPieces malloc bag (separated (List.ofFn pss)) := by
  induction n generalizing bag with
  | zero => rfl
  | succ n ih =>
    have hrest : ∀ bag, (List.finRange n).foldlM (fun bag (i : Fin n) =>
        (appendPieces malloc bag (pss i.succ)).bind fun bag =>
          if (i.succ : Nat) + 1 < n + 1 then appendStrToSolutionBag malloc [44] false bag else pure bag) bag =
        appendPieces malloc bag (separated (List.ofFn fun i => pss i.succ)) := by
      intro bag
      rw [← ih]
      simp only [Fin.val_succ, Nat.add_lt_add_iff_right, Option.bind_eq_bind]
    rw [finRange_succ, foldlM_cons]
    simp only [foldlM_map, Option.bind_eq_bind, Option.bind_assoc]
    simp only [hrest]
    cases n with
    | zero => exact Option.bind_fun_some _
    | succ n =>
      have hcomma : ((0 : Fin (n + 1 + 1)) : Nat) + 1 < n + 1 + 1 := Nat.succ_lt_succ (Nat.succ_pos n)
      simp only [if_pos hcomma]
      rw [ofFn_succ (f := pss), ofFn_succ, separated, appendPieces_append]
      simp only [appendPieces_cons]
      rfl

theorem auxTerm2StringList_end {car cdr : BpTerm} (h : cdr.isList = false)
    (hcdr : ∀ bag, auxTerm2StringTerm malloc cdr bag = appendPieces malloc bag cdr.pieces) (bag : BpStrBag) :
    auxTerm2StringList malloc car cdr bag =
      (auxTerm2StringTerm malloc car bag).bind fun bag => appendPieces malloc bag cdr.rest := by
  have hstep : auxTerm2StringList malloc car cdr bag = (auxTerm2StringTerm malloc car bag).bind fun bag =>
      if !cdr.isNil then do
        let bag ← appendStrToSolutionBag malloc [124] false bag
        let bag ← auxTerm2StringTerm malloc cdr bag
        appendStrToSolutionBag malloc [93] false bag
      else appendStrToSolutionBag malloc [93] false bag := by
    cases cdr with
    | list car' cdr' => cases h
    | int n =>
      rw [auxTerm2StringList]
      rfl
    | atom sym =>
      rw [auxTerm2StringList]
      rfl
    | str sym args =>
      rw [auxTerm2StringList]
      rfl
  rw [hstep]
  congr 1
  funext bag
  cases hnil : cdr.isNil with
  | true =>
    rw [BpTerm.rest_nil hnil, appendPieces_singleton]
    rfl
  | false =>
    rw [BpTerm.rest_tail hnil h, BpTerm.barred, appendPieces_cons]
    simp only [appendPieces_append, appendPieces_singleton, hcdr]
    rfl

theorem auxTerm2StringTerm_eq (t : BpTerm) :
    (∀ bag, auxTerm2StringTerm malloc t bag = appendPieces malloc bag t.pieces) ∧
    ∀ car cdr, t = .list car cdr → ∀ bag, auxTerm2StringList malloc car cdr bag =
      appendPieces malloc bag (car.pieces ++ cdr.rest) := by
  induction t with
  | int n =>
    refine ⟨fun bag => ?_, fun car cdr h => nomatch h⟩
    rw [auxTerm2StringTerm]
    exact (appendPieces_singleton malloc bag (.int n)).symm
  | atom sym =>
    refine ⟨fun bag => ?_, fun car cdr h => nomatch h⟩
    rw [auxTerm2StringTerm]
    exact (appendPieces_singleton malloc bag (.name sym.name)).symm
  | list car cdr ihcar ihcdr =>
    have hlist : ∀ bag, auxTerm2StringList malloc car cdr bag = appendPieces malloc bag (car.pieces ++ cdr.rest) := by
      intro bag
      cases cdr with
      | list car' cdr' =>
        rw [auxTerm2StringList, ihcar.1, appendPieces_append, BpTerm.rest_list]
        simp only [appendPieces_cons, ← ihcdr.2 car' cdr' rfl]
        rfl
      | int n => rw [auxTerm2StringList_end malloc rfl ihcdr.1, ihcar.1, appendPieces_append]
      | atom sym => rw [auxTerm2StringList_end malloc rfl ihcdr.1, ihcar.1, appendPieces_append]
      | str sym args => rw [auxTerm2StringList_end malloc rfl ihcdr.1, ihcar.1, appendPieces_append]
    constructor
    · intro bag
      rw [auxTerm2StringTerm, BpTerm.pieces_list, appendPieces_cons]
      exact congrArg _ (funext hlist)
    · intro car' cdr' h
      cases h
      exact hlist
  | str sym args ih =>
    refine ⟨fun bag => ?_, fun car cdr h => nomatch h⟩
    rw [auxTerm2StringTerm, BpTerm.pieces_str, appendPieces_cons]
    simp only [fun i => (ih i).1, appendArgs_eq]
    congr 1
    funext bag
    rw [appendPieces_cons]
    simp only [appendPieces_append, appendPieces_singleton]
    rfl

end

/-! ## One piece -/

def BpStrBag.Counted (bag : BpStrBag) : Prop := 0 ∈ bag.buf ∧ (cString bag.buf).length = bag.pos

/-- The string in the buffer is `text`, and is counted. -/
structure BpStrBag.Holds (bag : BpStrBag) (text : List UInt8) : Prop where
  pos : bag.pos = text.length
  nul : 0 ∉ text
  buf : ∃ junk, bag.buf = text ++ 0 :: junk

section
variable {bag : BpStrBag} {text : List UInt8} (h : bag.Holds text)
include h

theorem BpStrBag.Holds.cString_eq : cString bag.buf = text := by
  obtain ⟨junk, hbuf⟩ := h.buf
  rw [hbuf, cString_append h.nul, cString_zero, append_nil]

theorem BpStrBag.Holds.mem : 0 ∈ bag.buf := by
  obtain ⟨junk, hbuf⟩ := h.buf
  rw [hbuf]
  exact mem_append_right text mem_cons_self

theorem BpStrBag.Holds.counted : bag.Counted :=
  ⟨h.mem, by rw [h.cString_eq, h.pos]⟩

end

/-- The buffer begins with `text`, and has room for `len` bytes, or a NUL behind `text` where a copy of it stops. -/
structure BpStrBag.Begins (bag : BpStrBag) (text : List UInt8) (len : Nat) : Prop where
  pos : bag.pos = text.length
  nul : 0 ∉ text
  buf : ∃ junk, bag.buf = text ++ junk ∧ (bag.pos + len + 10 < bag.size ∨ 0 ∈ junk)

theorem BpStrBag.Holds.begins {bag : BpStrBag} {text : List UInt8} (h : bag.Holds text) (len : Nat) :
    bag.Begins text len := by
  obtain ⟨junk, hbuf⟩ := h.buf
  exact ⟨h.pos, h.nul, _, hbuf, .inr mem_cons_self⟩

section
variable {malloc : Malloc} {bag bag' : BpStrBag} {text str : List UInt8} {len : Nat}

theorem expand_begins (malloc : Malloc) (h : bag.Begins text len) (hfull : bag.size ≤ bag.pos + len + 10) :
    ∃ bag', expandBpStrBag malloc bag = some bag' ∧ bag'.Begins text len := by
  obtain ⟨junk, hbuf, hroom⟩ := h.buf
  have hnul := hroom.resolve_left (not_lt.2 hfull)
  have hmem : 0 ∈ bag.buf := hbuf ▸ mem_append_right text hnul
  obtain ⟨bag', hexp⟩ : ∃ bag', expandBpStrBag malloc bag = some bag' := ⟨_, dif_pos hmem⟩
  obtain ⟨-, -, hpos, junk', hbuf'⟩ := expand_spec hexp
  refine ⟨bag', hexp, hpos.trans h.pos, h.nul, cString junk ++ 0 :: junk', ?_, ?_⟩
  · rw [hbuf', hbuf, cString_append h.nul, append_assoc]
  · exact .inr (mem_append_right _ mem_cons_self)

theorem append_eq_write (malloc : Malloc) (q : Bool) (h : bag.Begins text str.length) :
    ∃ bag' : BpStrBag, bag'.pos = text.length ∧ (∃ junk, bag'.buf = text ++ junk) ∧
      text.length + str.length + 10 < bag'.size ∧ appendStrToSolutionBag malloc str q bag =
        if q && singleQuoteNeeded str then bag'.write (strcpyAddQuote str).1 (strcpyAddQuote str).2
        else bag'.write (cString str ++ [0]) str.length := by
  induction hk : bag.pos + str.length + 11 - bag.size using Nat.strong_induction_on generalizing bag with
  | _ k ih =>
    rw [appendStrToSolutionBag]
    by_cases hfull : bag.size ≤ bag.pos + str.length + 10
    · obtain ⟨bag1, hexp, hbegins⟩ := expand_begins malloc h hfull
      obtain ⟨-, hsize, hpos, -⟩ := expand_spec hexp
      have hless : bag1.pos + str.length + 11 - bag1.size < k := by
        have := bag.size_pos
        omega
      obtain ⟨bag', hpos', hbuf', hroom', heq⟩ := ih _ hless hbegins rfl
      refine ⟨bag', hpos', hbuf', hroom', ?_⟩
      rw [if_pos hfull, ← heq]
      split
      · rename_i hnone
        rw [hexp] at hnone
        cases hnone
      · rename_i bag2 hsome
        rw [hexp] at hsome
        cases hsome
        rfl
    · obtain ⟨junk, hbuf, -⟩ := h.buf
      have hpos := h.pos
      exact ⟨bag, hpos, ⟨junk, hbuf⟩, by omega, if_neg hfull⟩

theorem write_eq_some (hpos : bag.pos = text.length) (hbuf : ∃ junk, bag.buf = text ++ junk)
    (h : bag.write bytes len = some bag') : bag'.pos = text.length + len ∧ ∃ junk, bag'.buf = text ++ (bytes ++ junk) := by
  obtain ⟨junk, hbuf⟩ := hbuf
  unfold BpStrBag.write at h
  split_ifs at h with hfit
  cases h
  refine ⟨congrArg (· + len) hpos, bag.buf.drop (bag.pos + bytes.length), ?_⟩
  show bag.buf.take bag.pos ++ _ = _
  rw [hpos, hbuf, take_left]

theorem write_spec (bytes : List UInt8) (hpos : bag.pos = text.length) (hbuf : ∃ junk, bag.buf = text ++ junk)
    (hroom : text.length + bytes.length ≤ bag.size) (len : Nat) :
    ∃ bag' junk, bag.write bytes len = some bag' ∧ bag'.pos = text.length + len ∧ bag'.buf = text ++ (bytes ++ junk) := by
  have hfit : bag.pos + bytes.length ≤ bag.size := hpos ▸ hroom
  obtain ⟨bag', hwrite⟩ : ∃ bag', bag.write bytes len = some bag' := ⟨_, dif_pos hfit⟩
  obtain ⟨hpos', junk, hbuf'⟩ := write_eq_some hpos hbuf hwrite
  exact ⟨bag', junk, hwrite, hpos', hbuf'⟩

def Clean (str : List UInt8) : Prop := ∀ b ∈ str, escapeOf b = none ∧ b ≠ 0

instance (str : List UInt8) : Decidable (Clean str) := List.decidableBAll (fun b => escapeOf b = none ∧ b ≠ 0) str

theorem Clean.nul (h : Clean str) : 0 ∉ str := fun hmem => (h 0 hmem).2 rfl

theorem Clean.cString_eq (h : Clean str) : cString str = str := by
  have happ := cString_append h.nul []
  rwa [append_nil, show cString [] = [] from rfl, append_nil] at happ

theorem Clean.quoted_eq (h : Clean str) : str.flatMap quotedByte = str :=
  flatMap_quotedByte fun b hb => quotedByte_of_plain (h b hb).1

theorem Clean.count_eq (h : Clean str) : (str.countP fun b => (escapeOf b).isSome) = 0 := by
  apply countP_eq_zero.2
  intro b hb
  rw [(h b hb).1]
  decide

theorem clean_nameByte (h : isNameByte b = true) : escapeOf b = none ∧ b ≠ 0 := by
  have hall : ∀ n < 256, isNameByte (UInt8.ofNat n) = true → escapeOf (UInt8.ofNat n) = none ∧ UInt8.ofNat n ≠ 0 := by
    decide +kernel
  have hb := hall b.toNat b.toNat_lt
  rw [UInt8.ofNat_toNat] at hb
  exact hb h

theorem clean_of_plain (h : singleQuoteNeeded str = false) : Clean str := by
  obtain ⟨b, t, rfl, hb, ht⟩ := singleQuoteNeeded_eq_false h
  intro x hx
  rcases mem_cons.1 hx with rfl | hx
  · exact clean_nameByte (isNameByte_lower hb)
  · exact clean_nameByte (ht x hx)

def writtenText (str : List UInt8) (q : Bool) : List UInt8 := if q then qname str else str

theorem append_clean (malloc : Malloc) (q : Bool) (h : bag.Begins text str.length) (hstr : Clean str) :
    ∃ bag', appendStrToSolutionBag malloc str q bag = some bag' ∧ bag'.Holds (text ++ writtenText str q) := by
  obtain ⟨bag1, hpos, hbuf, hroom, heq⟩ := append_eq_write malloc q h
  rw [heq]
  have hplain : ∃ bag', bag1.write (cString str ++ [0]) str.length = some bag' ∧ bag'.Holds (text ++ str) := by
    rw [hstr.cString_eq]
    obtain ⟨bag', junk, hwrite, hpos', hbuf'⟩ := write_spec (str ++ [0]) hpos hbuf
      (by rw [length_append, length_singleton]; omega) str.length
    refine ⟨bag', hwrite, by rw [hpos', length_append], ?_, junk, ?_⟩
    · exact fun hmem => (mem_append.1 hmem).elim h.nul hstr.nul
    · rw [hbuf', append_assoc, append_assoc]
      rfl
  cases q with
  | false => exact hplain
  | true =>
    cases hneed : singleQuoteNeeded str with
    | false =>
      rw [writtenText, if_pos rfl, qname_plain hneed]
      exact hplain
    | true =>
      have hbytes : (strcpyAddQuote str).1 = (39 :: (str ++ [39])) ++ [0] := by
        rw [strcpyAddQuote, hstr.quoted_eq, cons_append, append_assoc]
        rfl
      have hlen : (strcpyAddQuote str).2 = (39 :: (str ++ [39])).length := by
        rw [strcpyAddQuote, hstr.count_eq, length_cons, length_append, length_singleton]
      rw [Bool.and_self, if_pos rfl, hbytes, hlen, writtenText, if_pos rfl, qname_quoted hneed, hstr.quoted_eq]
      have hshort : (39 :: (str ++ [39])).length = str.length + 2 := by
        rw [length_cons, length_append, length_singleton]
      obtain ⟨bag', junk, hwrite, hpos', hbuf'⟩ := write_spec ((39 :: (str ++ [39])) ++ [0]) hpos hbuf
        (by rw [length_append, length_singleton, hshort]; omega) (39 :: (str ++ [39])).length
      refine ⟨bag', hwrite, by rw [hpos', length_append], ?_, junk, ?_⟩
      · intro hmem
        rcases mem_append.1 hmem with hmem | hmem
        · exact h.nul hmem
        · rcases mem_cons.1 hmem with hmem | hmem
          · cases hmem
          · rcases mem_append.1 hmem with hmem | hmem
            · exact hstr.nul hmem
            · cases mem_singleton.1 hmem
      · rw [hbuf', append_assoc, append_assoc]
        rfl

theorem length_quoted (str : List UInt8) :
    (str.flatMap quotedByte).length = str.length + str.countP fun b => (escapeOf b).isSome := by
  induction str with
  | nil => rfl
  | cons b str ih =>
    rw [flatMap_cons, length_append, ih, length_cons]
    cases he : escapeOf b with
    | none =>
      rw [countP_cons_of_neg (by rw [he]; decide), quotedByte_of_plain he, length_singleton]
      omega
    | some e =>
      rw [countP_cons_of_pos (by rw [he]; rfl), quotedByte_of_escape he]
      show 2 + _ = _
      omega

theorem count_pos_of_not_clean (h : ¬ Clean str) (hnul : 0 ∉ str.flatMap quotedByte) :
    0 < str.countP fun b => (escapeOf b).isSome := by
  by_contra hzero
  have hplain : ∀ b ∈ str, escapeOf b = none := by
    intro b hb
    have hb' := countP_eq_zero.1 (Nat.eq_zero_of_not_pos hzero) b hb
    simpa using hb'
  rw [flatMap_quotedByte fun b hb => quotedByte_of_plain (hplain b hb)] at hnul
  exact h fun b hb => ⟨hplain b hb, fun h0 => hnul (h0 ▸ hb)⟩

/-- A name with a character that needs a backslash, or with a NUL, is miscounted, or is written outside the buffer. -/
theorem append_dirty (h : bag.Begins text str.length) (hstr : ¬ Clean str)
    (hrun : appendStrToSolutionBag malloc str true bag = some bag') : ¬ bag'.Counted := by
  obtain ⟨bag1, hpos, hbuf, -, heq⟩ := append_eq_write malloc true h
  cases hneed : singleQuoteNeeded str with
  | false => exact absurd (clean_of_plain hneed) hstr
  | true =>
    rw [hrun, hneed, Bool.and_self, if_pos rfl] at heq
    obtain ⟨hpos', junk, hbuf'⟩ := write_eq_some hpos hbuf heq.symm
    have hquoted := length_quoted str
    rintro ⟨-, hcount⟩
    have hbytes : bag'.buf = text ++ ((39 :: str.flatMap quotedByte) ++ ([39] ++ 0 :: junk)) := by
      rw [hbuf', strcpyAddQuote, cons_append, append_assoc]
      rfl
    rw [hpos', hbytes, cString_append h.nul, length_append, strcpyAddQuote] at hcount
    by_cases hmem : 0 ∈ str.flatMap quotedByte
    · have hlt := length_cString_lt (mem_cons_of_mem 39 hmem)
      rw [cString_append_mem (mem_cons_of_mem 39 hmem)] at hcount
      rw [length_cons] at hlt
      omega
    · have hnul : 0 ∉ 39 :: str.flatMap quotedByte := by
        intro h0
        rcases mem_cons.1 h0 with h0 | h0
        · cases h0
        · exact hmem h0
      have hescape := count_pos_of_not_clean hstr hmem
      rw [cString_append hnul, length_append, length_cons, cString_append (by decide), cString_zero,
        append_nil, length_singleton] at hcount
      omega

theorem append_unread (q : Bool) (hfull : bag.size ≤ bag.pos + str.length + 10) (hnul : 0 ∉ bag.buf) :
    appendStrToSolutionBag malloc str q bag = none := by
  have hexp : expandBpStrBag malloc bag = none := dif_neg hnul
  rw [appendStrToSolutionBag, if_pos hfull]
  split
  · rfl
  · rename_i bag' hsome
    rw [hexp] at hsome
    cases hsome

end

/-! ## All pieces -/

theorem decimalDigits_lt {n : Nat} : ∀ d ∈ decimalDigits n, d < 10 := by
  intro d hd
  unfold decimalDigits at hd
  split_ifs at hd with hn
  · rw [mem_singleton.1 hd]
    decide
  · exact Nat.digits_lt_base (by decide) (mem_reverse.1 hd)

theorem clean_formatD (n : Int) : Clean (formatD n) := by
  have hdigit : ∀ d < 10, escapeOf (digitByte d) = none ∧ digitByte d ≠ 0 := by decide +kernel
  have hdigits : Clean ((decimalDigits n.natAbs).map digitByte) := by
    intro b hb
    obtain ⟨d, hd, rfl⟩ := mem_map.1 hb
    exact hdigit d (decimalDigits_lt d hd)
  unfold formatD
  split_ifs
  · intro b hb
    rcases mem_append.1 hb with hb | hb
    · rw [mem_singleton.1 hb]
      decide
    · exact hdigits b hb
  · exact hdigits

namespace Piece

def text (p : Piece) : List UInt8 := writtenText p.str p.checkQuote

def IsClean (p : Piece) : Prop := Clean p.str

theorem isClean_punct (c : Punct) : (punct c).IsClean := by
  intro b hb
  rw [mem_singleton.1 hb]
  cases c <;> decide

theorem isClean_int (n : Int) : (int n).IsClean := clean_formatD _

end Piece

def textOf (ps : List Piece) : List UInt8 := ps.flatMap Piece.text

section
variable {malloc : Malloc} {bag bag' : BpStrBag} {text : List UInt8} {p : Piece} {ps : List Piece}

theorem appendPiece_clean (malloc : Malloc) (h : bag.Begins text p.str.length) (hp : p.IsClean) :
    ∃ bag', appendPiece malloc bag p = some bag' ∧ bag'.Holds (text ++ p.text) := append_clean malloc _ h hp

theorem appendPiece_dirty (h : bag.Begins text p.str.length) (hp : ¬ p.IsClean)
    (hrun : appendPiece malloc bag p = some bag') : ¬ bag'.Counted := by
  cases p with
  | int n => exact absurd (Piece.isClean_int n) hp
  | punct c => exact absurd (Piece.isClean_punct c) hp
  | name s => exact append_dirty h hp hrun

theorem appendPieces_clean (malloc : Malloc) (h : bag.Holds text) (hps : ∀ p ∈ ps, p.IsClean) :
    ∃ bag', appendPieces malloc bag ps = some bag' ∧ bag'.Holds (text ++ textOf ps) := by
  induction ps generalizing bag text with
  | nil => exact ⟨bag, rfl, by rwa [textOf, flatMap_nil, append_nil]⟩
  | cons p ps ih =>
    obtain ⟨hp, hps⟩ := forall_mem_cons.1 hps
    obtain ⟨bag1, hstep, hholds⟩ := appendPiece_clean malloc (h.begins _) hp
    obtain ⟨bag', hrun, hholds'⟩ := ih hholds hps
    refine ⟨bag', ?_, ?_⟩
    · rw [appendPieces_cons, hstep]
      exact hrun
    · rwa [textOf, flatMap_cons, ← append_assoc]

/-- After every piece the counter is the length of the text so far, and nothing has been read or written outside. -/
def Counts (malloc : Malloc) (bag : BpStrBag) (ps : List Piece) : Prop :=
  ∀ qs, qs ≠ [] → qs <+: ps → ∃ bag', appendPieces malloc bag qs = some bag' ∧ bag'.Counted

theorem Counts.head (h : Counts malloc bag (p :: ps)) :
    ∃ bag', appendPiece malloc bag p = some bag' ∧ bag'.Counted := by
  obtain ⟨bag', hrun, hcount⟩ := h [p] (cons_ne_nil p []) (prefix_iff_eq_append.2 rfl)
  rw [appendPieces_singleton] at hrun
  exact ⟨bag', hrun, hcount⟩

theorem Counts.tail (h : Counts malloc bag (p :: ps)) (hstep : appendPiece malloc bag p = some bag') :
    Counts malloc bag' ps := by
  intro qs hne hqs
  obtain ⟨bag2, hrun, hcount⟩ := h (p :: qs) (cons_ne_nil p qs) (cons_prefix_cons.2 ⟨rfl, hqs⟩)
  rw [appendPieces_cons, hstep] at hrun
  exact ⟨bag2, hrun, hcount⟩

theorem Counts.clean (hbag : bag.Holds text) (h : Counts malloc bag ps) : ∀ p ∈ ps, p.IsClean := by
  induction ps generalizing bag text with
  | nil => exact fun p hp => nomatch hp
  | cons p ps ih =>
    obtain ⟨bag', hstep, hcount⟩ := h.head
    by_cases hp : p.IsClean
    · obtain ⟨bag1, hstep', hholds⟩ := appendPiece_clean malloc (hbag.begins _) hp
      rw [hstep'] at hstep
      cases hstep
      exact forall_mem_cons.2 ⟨hp, ih hholds (h.tail hstep')⟩
    · exact absurd hcount (appendPiece_dirty (hbag.begins _) hp hstep)

/-- There is room for the first piece, or the buffer has a NUL, so that it can be copied. -/
def FirstFits (bag : BpStrBag) (ps : List Piece) : Prop :=
  ∀ p ∈ ps.head?, p.str.length + 10 < bag.size ∨ 0 ∈ bag.buf

theorem begins_zero (hpos : bag.pos = 0) {len : Nat} (h : len + 10 < bag.size ∨ 0 ∈ bag.buf) : bag.Begins [] len :=
  ⟨hpos, not_mem_nil, bag.buf, rfl, h.imp_left fun hlen => by rwa [hpos, Nat.zero_add]⟩

/-- The counter is right when the names are clean and the first piece is no obstacle, and only then. -/
theorem counts_iff (hpos : bag.pos = 0) : Counts malloc bag ps ↔ (∀ p ∈ ps, p.IsClean) ∧ FirstFits bag ps := by
  cases ps with
  | nil => exact iff_of_true (fun qs hne hqs => absurd (prefix_nil.1 hqs) hne) ⟨fun p hp => (nomatch hp), nofun⟩
  | cons p ps =>
    constructor
    · intro h
      obtain ⟨bag', hstep, hcount⟩ := h.head
      have hroom : p.str.length + 10 < bag.size ∨ 0 ∈ bag.buf := by
        by_contra hnot
        obtain ⟨hfull, hnul⟩ := not_or.1 hnot
        rw [appendPiece, append_unread _ (by omega) hnul] at hstep
        cases hstep
      have hbegins := begins_zero hpos hroom
      by_cases hp : p.IsClean
      · obtain ⟨bag1, hstep', hholds⟩ := appendPiece_clean malloc hbegins hp
        refine ⟨forall_mem_cons.2 ⟨hp, (h.tail hstep').clean hholds⟩, fun q hq => ?_⟩
        cases hq
        exact hroom
      · exact absurd hcount (appendPiece_dirty hbegins hp hstep)
    · rintro ⟨hclean, hfits⟩ qs hne hqs
      cases qs with
      | nil => exact absurd rfl hne
      | cons q qs =>
        obtain ⟨rfl, htail⟩ := cons_prefix_cons.1 hqs
        obtain ⟨hp, hps⟩ := forall_mem_cons.1 hclean
        obtain ⟨bag1, hstep, hholds⟩ := appendPiece_clean malloc (begins_zero hpos (hfits q rfl)) hp
        obtain ⟨bag', hrun, hholds'⟩ := appendPieces_clean malloc hholds fun r hr => hps r (htail.subset hr)
        refine ⟨bag', ?_, hholds'.counted⟩
        rw [appendPieces_cons, hstep]
        exact hrun

theorem complete_text (hpos : bag.pos = 0) (hne : ps ≠ []) (h : Counts malloc bag ps) :
    ∃ bag', appendPieces malloc bag ps = some bag' ∧ bag'.Holds (textOf ps) := by
  obtain ⟨hclean, hfits⟩ := (counts_iff hpos).1 h
  cases ps with
  | nil => exact absurd rfl hne
  | cons p ps =>
    obtain ⟨hp, hps⟩ := forall_mem_cons.1 hclean
    obtain ⟨bag1, hstep, hholds⟩ := appendPiece_clean malloc (begins_zero hpos (hfits p rfl)) hp
    obtain ⟨bag', hrun, hholds'⟩ := appendPieces_clean malloc hholds hps
    refine ⟨bag', ?_, hholds'⟩
    rw [appendPieces_cons, hstep]
    exact hrun

end

end Picat
