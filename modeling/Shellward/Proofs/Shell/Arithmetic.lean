import Mathlib.Data.Countable.Basic
import Mathlib.Logic.Equiv.List
import Mathlib.Tactic.DeriveCountable
import Shellward.Operator

/-!
# Arithmetic in the shell

How the shell reads the text of an arithmetic expansion, and what it computes.  A
text is cut into symbols, and the symbols are grouped by the precedence of operators
and the parentheses.  A reading is a tree that spells the symbols and in which every
operand binds as tightly as its operator asks.

Main results:

- Theorem `Term.eq_of_symbols_eq`: symbols have at most one reading.
- Theorem `Term.exists_ranked`: the symbols of every tree have a reading.
- Theorem `Term.eq_of_essence_eq`: trees that spell the same symbols are equal if they
  are equal without their parentheses.
- Theorem `Valuation.exists_free`: some valuation tells all trees apart that differ
  in more than parentheses.
-/

namespace Shellward
namespace Shell
namespace Arithmetic

/-! ### Symbols -/

/-- The symbols of arithmetic; one minus sign serves as sign and as operator. -/
inductive Symbol where
  | name (text : String)
  | number (digits : String)
  | operator (op : Operator)
  | openParen
  | closeParen
deriving DecidableEq, Repr

/-- Whether a symbol is an operator or a sign. -/
def Symbol.isOperator : Symbol → Bool
  | .operator _ => true
  | _ => false

/-- The characters that names of variables begin with. -/
def isNameStart (c : Char) : Bool :=
  c.isAlpha || c == '_'

/-- The characters of names of variables. -/
def isNameChar (c : Char) : Bool :=
  c.isAlphanum || c == '_'

/-- The characters of operators. -/
def isSign (c : Char) : Bool :=
  ['=', '!', '<', '>', '+', '-', '*', '/', '%'].contains c

/-- The symbols of a text.  A run of characters of operators is one operator. -/
def cut : List Char → Option (List Symbol)
  | [] => some []
  | c :: cs =>
      if c = ' ' then cut cs
      else if c = '(' then (cut cs).map (.openParen :: ·)
      else if c = ')' then (cut cs).map (.closeParen :: ·)
      else if c = '$' then
        if cs.head?.any isNameStart then
          (cut (cs.dropWhile isNameChar)).map
            (.name (String.ofList (cs.takeWhile isNameChar)) :: ·)
        else none
      else if c.isDigit then
        (cut (cs.dropWhile Char.isDigit)).map
          (.number (String.ofList (c :: cs.takeWhile Char.isDigit)) :: ·)
      else
        match Operator.ofSpelling? (String.ofList (c :: cs.takeWhile isSign)) with
        | some op => (cut (cs.dropWhile isSign)).map (.operator op :: ·)
        | none => none
termination_by cs => cs.length
decreasing_by
  all_goals
    simp only [List.length_cons]
    try exact Nat.lt_succ_of_le (List.dropWhile_suffix _).length_le
  all_goals exact Nat.lt_succ_self _

/-- Where a run of characters ends. -/
theorem span_of_stop {p : Char → Bool} {run rest : List Char} (hrun : ∀ c ∈ run, p c = true)
    (hrest : rest.head?.any p = false) :
    (run ++ rest).takeWhile p = run ∧ (run ++ rest).dropWhile p = rest := by
  rw [List.takeWhile_append_of_pos hrun, List.dropWhile_append_of_pos hrun]
  cases rest with
  | nil => exact ⟨List.append_nil run, rfl⟩
  | cons c cs =>
      have hc : ¬ p c = true := by simpa using hrest
      rw [List.takeWhile_cons_of_neg hc, List.dropWhile_cons_of_neg hc]
      exact ⟨List.append_nil run, rfl⟩

/-- A space is no symbol. -/
theorem cut_space (cs : List Char) : cut (' ' :: cs) = cut cs := by
  rw [cut, if_pos rfl]

theorem cut_open (cs : List Char) : cut ('(' :: cs) = (cut cs).map (.openParen :: ·) := by
  rw [cut, if_neg (by decide), if_pos rfl]

theorem cut_close (cs : List Char) : cut (')' :: cs) = (cut cs).map (.closeParen :: ·) := by
  rw [cut, if_neg (by decide), if_neg (by decide), if_pos rfl]

/-- A name after a dollar sign is one symbol. -/
theorem cut_name {c : Char} {run rest : List Char} (hstart : isNameStart c = true)
    (hrun : ∀ d ∈ c :: run, isNameChar d = true) (hrest : rest.head?.any isNameChar = false) :
    cut ('$' :: (c :: run ++ rest)) =
      (cut rest).map (.name (String.ofList (c :: run)) :: ·) := by
  rcases span_of_stop hrun hrest with ⟨htake, hdrop⟩
  rw [cut, if_neg (by decide), if_neg (by decide), if_neg (by decide), if_pos rfl,
    if_pos (by simpa using hstart), htake, hdrop]

/-- A run of digits is one symbol. -/
theorem cut_number {c : Char} {run rest : List Char} (hc : c.isDigit = true)
    (hrun : ∀ d ∈ run, d.isDigit = true) (hrest : rest.head?.any Char.isDigit = false) :
    cut (c :: run ++ rest) = (cut rest).map (.number (String.ofList (c :: run)) :: ·) := by
  rcases span_of_stop hrun hrest with ⟨htake, hdrop⟩
  have hne : ∀ d : Char, d.isDigit = false → c ≠ d := by
    rintro d hd rfl
    rw [hc] at hd
    exact Bool.noConfusion hd
  rw [List.cons_append, cut, if_neg (hne _ (by decide)), if_neg (hne _ (by decide)),
    if_neg (hne _ (by decide)), if_neg (hne _ (by decide)), if_pos hc, htake, hdrop]

theorem isSign_eq_false_of_isDigit {c : Char} (h : c.isDigit = true) : isSign c = false := by
  cases hsign : isSign c with
  | false => rfl
  | true =>
      have hsigns : ['=', '!', '<', '>', '+', '-', '*', '/', '%'].all (!·.isDigit) = true := by
        decide
      have hnot := List.all_eq_true.mp hsigns c (List.contains_iff_mem.mp hsign)
      rw [h] at hnot
      exact Bool.noConfusion hnot

/-- The spelling of an operator is one symbol. -/
theorem cut_operator (op : Operator) {rest : List Char}
    (hrest : rest.head?.any isSign = false) :
    cut (op.spelling.toList ++ rest) = (cut rest).map (.operator op :: ·) := by
  have hspelling : ∃ c run, op.spelling.toList = c :: run ∧ isSign c = true ∧
      run.all isSign = true := by
    cases op <;> exact ⟨_, _, rfl, by decide⟩
  rcases hspelling with ⟨c, run, hchars, hc, hrun⟩
  rcases span_of_stop (List.all_eq_true.mp hrun) hrest with ⟨htake, hdrop⟩
  have hne : ∀ d : Char, isSign d = false → c ≠ d := by
    rintro d hd rfl
    rw [hc] at hd
    exact Bool.noConfusion hd
  have hdigit : c.isDigit = false := by
    cases hcase : c.isDigit with
    | false => rfl
    | true =>
        rw [isSign_eq_false_of_isDigit hcase] at hc
        exact Bool.noConfusion hc
  have htext : String.ofList (c :: run) = op.spelling := by
    rw [← hchars, String.ofList_toList]
  rw [hchars, List.cons_append, cut, if_neg (hne _ (by decide)), if_neg (hne _ (by decide)),
    if_neg (hne _ (by decide)), if_neg (hne _ (by decide)),
    if_neg (by rw [hdigit]; exact Bool.noConfusion), htake, hdrop, htext,
    Operator.ofSpelling?_spelling]

/-! ### Trees -/

deriving instance Countable for Operator

instance countableString : Countable String := by
  have hchar : Countable Char :=
    Function.Injective.countable fun c d (h : c.toNat = d.toNat) =>
      Char.ext (UInt32.toNat_inj.mp h)
  exact Function.Injective.countable fun s t (h : s.toList = t.toList) => String.toList_inj.mp h

/-- The trees of arithmetic. -/
inductive Term where
  | name (text : String)
  | number (digits : String)
  | minus (inner : Term)
  | binary (op : Operator) (left right : Term)
  | group (inner : Term)
deriving DecidableEq, Repr, Countable

/-- How tightly an operator binds. -/
def operatorRank : Operator → Nat
  | .equal | .notEqual => 1
  | .less | .lessEqual | .greater | .greaterEqual => 2
  | .add | .subtract => 3
  | .multiply | .divide | .remainder => 4

/-- How tightly a sign binds, which is tighter than every operator. -/
def signRank : Nat := 5

/-- Every operator binds less tightly than a sign. -/
theorem operatorRank_lt_signRank (op : Operator) : operatorRank op < signRank := by
  cases op <;> decide

namespace Term

/-- How tightly the parts of a tree hold together. -/
def rank : Term → Nat
  | .name _ | .number _ | .group _ => 6
  | .minus _ => signRank
  | .binary op _ _ => operatorRank op

/-- The symbols that a tree spells. -/
def symbols : Term → List Symbol
  | .name text => [.name text]
  | .number digits => [.number digits]
  | .minus inner => .operator .subtract :: inner.symbols
  | .binary op left right => left.symbols ++ .operator op :: right.symbols
  | .group inner => .openParen :: (inner.symbols ++ [.closeParen])

/-- Every operand holds together as tightly as its operator asks.  The right operand
holds together more tightly, so that operators of one rank group to the left. -/
def Ranked : Term → Prop
  | .name _ | .number _ => True
  | .minus inner => signRank ≤ inner.rank ∧ inner.Ranked
  | .binary op left right =>
      operatorRank op ≤ left.rank ∧ operatorRank op < right.rank ∧
        left.Ranked ∧ right.Ranked
  | .group inner => inner.Ranked

end Term

/-- A text is read as a tree. -/
def Reads (text : String) (t : Term) : Prop :=
  cut text.toList = some t.symbols ∧ t.Ranked

/-! ### Values -/

/-- Values for names, numbers and operators, where the number zero is zero. -/
structure Valuation where
  name : String → Int
  number : String → Int
  operation : Operator → Int → Int → Int
  number_zero : number "0" = 0

/-- The value of a tree, where a sign subtracts from zero. -/
def Term.value (v : Valuation) : Term → Int
  | .name text => v.name text
  | .number digits => v.number digits
  | .minus inner => v.operation .subtract 0 (inner.value v)
  | .binary op left right => v.operation op (left.value v) (right.value v)
  | .group inner => inner.value v

/-! ### Symbols have at most one reading -/

/-- What is left open while symbols are read from the left. -/
inductive Frame where
  | sign
  | operand (left : Term) (op : Operator)
  | paren
deriving DecidableEq, Repr

/-- Close the signs and operands that bind at least as tightly as a rank. -/
def close (n : Nat) : List Frame → Term → Term × List Frame
  | .sign :: frames, t => close n frames (.minus t)
  | .operand left op :: frames, t =>
      if n ≤ operatorRank op then close n frames (.binary op left t)
      else (t, .operand left op :: frames)
  | .paren :: frames, t => (t, .paren :: frames)
  | [], t => (t, [])

mutual

/-- Read symbols where an operand begins. -/
def readOperand (frames : List Frame) : List Symbol → Option Term
  | .name text :: ss => readOperator frames (.name text) ss
  | .number digits :: ss => readOperator frames (.number digits) ss
  | .operator .subtract :: ss => readOperand (.sign :: frames) ss
  | .openParen :: ss => readOperand (.paren :: frames) ss
  | _ => none

/-- Read symbols after an operand. -/
def readOperator (frames : List Frame) (t : Term) : List Symbol → Option Term
  | .operator op :: ss =>
      let closed := close (operatorRank op) frames t
      readOperand (.operand closed.1 op :: closed.2) ss
  | .closeParen :: ss =>
      match close 0 frames t with
      | (inner, .paren :: outer) => readOperator outer (.group inner) ss
      | _ => none
  | [] =>
      match close 0 frames t with
      | (whole, []) => some whole
      | _ => none
  | _ => none

end

/-- A tree of a rank may stand where these frames are open. -/
def Admits : List Frame → Nat → Prop
  | .sign :: _, n => signRank ≤ n
  | .operand _ op :: _, n => operatorRank op < n
  | _, _ => True

/-- A tree of a rank ends before these symbols. -/
def EndsBefore (n : Nat) : List Symbol → Prop
  | .operator op :: _ => operatorRank op ≤ n
  | _ => True

/-- Where a tree of a rank may stand, a tree that holds together more tightly may. -/
theorem Admits.mono {frames : List Frame} {m n : Nat} (h : Admits frames m) (hle : m ≤ n) :
    Admits frames n := by
  cases frames with
  | nil => trivial
  | cons frame frames =>
      cases frame with
      | sign => exact Nat.le_trans h hle
      | operand left op => exact Nat.lt_of_lt_of_le h hle
      | paren => trivial

/-- Where a tree of a rank ends, a tree that holds together more tightly ends. -/
theorem EndsBefore.mono {m n : Nat} {ss : List Symbol} (h : EndsBefore m ss) (hle : m ≤ n) :
    EndsBefore n ss := by
  cases ss with
  | nil => trivial
  | cons s ss =>
      cases s with
      | operator op => exact Nat.le_trans h hle
      | name | number | openParen | closeParen => trivial

/-- Frames that admit a tree of the rank of an operator stay open before it. -/
theorem close_of_admits {op : Operator} {frames : List Frame} (h : Admits frames (operatorRank op))
    (t : Term) : close (operatorRank op) frames t = (t, frames) := by
  cases frames with
  | nil => rfl
  | cons frame frames =>
      cases frame with
      | sign => exact absurd h (Nat.not_le_of_lt (operatorRank_lt_signRank op))
      | operand left op' => exact if_neg (Nat.not_le_of_lt h)
      | paren => rfl

/-- A sign ends where its operand ends. -/
theorem readOperator_sign (frames : List Frame) (t : Term) (ss : List Symbol) :
    readOperator (.sign :: frames) t ss = readOperator frames (.minus t) ss := by
  cases ss with
  | nil => rfl
  | cons s ss => cases s <;> rfl

/-- An operation ends where its right operand ends. -/
theorem readOperator_operand {op : Operator} {left : Term} {ss : List Symbol}
    (h : EndsBefore (operatorRank op) ss) (frames : List Frame) (t : Term) :
    readOperator (.operand left op :: frames) t ss =
      readOperator frames (.binary op left t) ss := by
  have hclose : ∀ n ≤ operatorRank op,
      close n (.operand left op :: frames) t = close n frames (.binary op left t) :=
    fun n hn => if_pos hn
  cases ss with
  | nil => rw [readOperator, readOperator, hclose 0 (Nat.zero_le _)]
  | cons s ss =>
      cases s with
      | operator op' => rw [readOperator, readOperator, hclose _ h]
      | closeParen => rw [readOperator, readOperator, hclose 0 (Nat.zero_le _)]
      | name | number | openParen => rfl

/-- The symbols of a tree are read as that tree, whatever follows them. -/
theorem Term.readOperand_symbols : ∀ (t : Term) (frames : List Frame) (ss : List Symbol),
    t.Ranked → Admits frames t.rank → EndsBefore t.rank ss →
      readOperand frames (t.symbols ++ ss) = readOperator frames t ss
  | .name _, _, _, _, _, _ => by rw [symbols, List.singleton_append, readOperand]
  | .number _, _, _, _, _, _ => by rw [symbols, List.singleton_append, readOperand]
  | .minus inner, frames, ss, ⟨hrank, hranked⟩, _, hends => by
      have hinner := readOperand_symbols inner (.sign :: frames) ss hranked hrank
        (hends.mono hrank)
      rw [symbols, List.cons_append, readOperand, hinner, readOperator_sign]
  | .binary op left right, frames, ss, ⟨hleft, hright, hl, hr⟩, hadmits, hends => by
      have hfirst := readOperand_symbols left frames (.operator op :: (right.symbols ++ ss)) hl
        (hadmits.mono hleft) hleft
      have hsecond := readOperand_symbols right (.operand left op :: frames) ss hr hright
        (hends.mono (Nat.le_of_lt hright))
      rw [symbols, List.append_assoc, List.cons_append, hfirst, readOperator,
        close_of_admits hadmits, hsecond, readOperator_operand hends]
  | .group inner, frames, ss, hranked, _, _ => by
      have hinner := readOperand_symbols inner (.paren :: frames) (.closeParen :: ss) hranked
        trivial trivial
      rw [symbols, List.cons_append, readOperand, List.append_assoc, List.singleton_append,
        hinner, readOperator]
      rfl

/-- Symbols have at most one reading. -/
theorem Term.eq_of_symbols_eq {t u : Term} (ht : t.Ranked) (hu : u.Ranked)
    (h : t.symbols = u.symbols) : t = u := by
  have hread : ∀ {w : Term}, w.Ranked → readOperand [] w.symbols = some w := by
    intro w hw
    have hsymbols := readOperand_symbols w [] [] hw trivial trivial
    rw [List.append_nil] at hsymbols
    rw [hsymbols]
    rfl
  have hsome : some t = some u := by rw [← hread ht, h, hread hu]
  exact Option.some.inj hsome

/-! ### Readings of longer texts -/

/-- A tree that holds together no more tightly than an operator is an operation. -/
theorem Term.exists_binary_of_rank_le {t : Term} {op : Operator} (h : t.rank ≤ operatorRank op) :
    ∃ op' left right, t = .binary op' left right := by
  have hlt := operatorRank_lt_signRank op
  cases t with
  | binary op' left right => exact ⟨op', left, right, rfl⟩
  | name | number | group =>
      have hsix : (6 : Nat) ≤ operatorRank op := h
      rw [signRank] at hlt
      omega
  | minus inner => exact absurd h (Nat.not_le_of_lt hlt)

/-- Two readings with an operator between them have a reading together.  The loosest
operator comes to the top, and of several loosest ones the last. -/
theorem Term.exists_ranked_binary (op : Operator) (l r : Term) (hl : l.Ranked) (hr : r.Ranked) :
    ∃ t : Term, t.Ranked ∧ t.symbols = l.symbols ++ .operator op :: r.symbols ∧
      t.rank = min (min l.rank (operatorRank op)) r.rank := by
  by_cases hright : r.rank ≤ min l.rank (operatorRank op)
  · -- the last operator of the right part is looser than all before it
    have hloose : r.rank ≤ operatorRank op := by omega
    rcases exists_binary_of_rank_le hloose with ⟨op', rl, rr, rfl⟩
    rcases hr with ⟨hrl, hrr, hrlRanked, hrrRanked⟩
    rcases exists_ranked_binary op l rl hl hrlRanked with ⟨t, ht, hsymbols, hrank⟩
    have hop' : operatorRank op' ≤ min l.rank (operatorRank op) := hright
    refine ⟨.binary op' t rr, ⟨by omega, hrr, ht, hrrRanked⟩, ?_, ?_⟩
    · rw [symbols, hsymbols, symbols, List.append_assoc, List.cons_append]
    · rw [rank, rank]
      omega
  · by_cases hleft : l.rank < operatorRank op
    · -- the last operator of the left part is looser than all after it
      rcases exists_binary_of_rank_le (Nat.le_of_lt hleft) with ⟨op', ll, lr, rfl⟩
      rcases hl with ⟨hll, hlr, hllRanked, hlrRanked⟩
      rcases exists_ranked_binary op lr r hlrRanked hr with ⟨t, ht, hsymbols, hrank⟩
      rw [rank] at hleft hright
      refine ⟨.binary op' ll t, ⟨hll, by omega, hllRanked, ht⟩, ?_, ?_⟩
      · rw [symbols, hsymbols, symbols, List.append_assoc, List.cons_append]
      · rw [rank, rank]
        omega
    · refine ⟨.binary op l r, ⟨by omega, by omega, hl, hr⟩, rfl, ?_⟩
      rw [rank]
      omega
termination_by sizeOf l + sizeOf r

/-- A sign before a reading has a reading with it: it belongs to the first operand. -/
theorem Term.exists_ranked_minus {t : Term} (h : t.Ranked) :
    ∃ u : Term, u.Ranked ∧ u.symbols = .operator .subtract :: t.symbols ∧
      u.rank = min t.rank signRank := by
  induction t with
  | name text => exact ⟨.minus (.name text), ⟨Nat.le_succ signRank, trivial⟩, rfl, rfl⟩
  | number digits => exact ⟨.minus (.number digits), ⟨Nat.le_succ signRank, trivial⟩, rfl, rfl⟩
  | minus inner => exact ⟨.minus (.minus inner), ⟨Nat.le_refl signRank, h⟩, rfl, rfl⟩
  | group inner => exact ⟨.minus (.group inner), ⟨Nat.le_succ signRank, h⟩, rfl, rfl⟩
  | binary op left right ihl _ =>
      rcases h with ⟨hleft, hright, hl, hr⟩
      rcases ihl hl with ⟨u, hu, hsymbols, hrank⟩
      have hop := operatorRank_lt_signRank op
      refine ⟨.binary op u right, ⟨by omega, hright, hu, hr⟩, ?_, ?_⟩
      · rw [symbols, hsymbols, symbols, List.cons_append]
      · rw [rank, rank]
        omega

/-- The symbols of every tree have a reading. -/
theorem Term.exists_ranked (t : Term) : ∃ u : Term, u.Ranked ∧ u.symbols = t.symbols := by
  induction t with
  | name text => exact ⟨.name text, trivial, rfl⟩
  | number digits => exact ⟨.number digits, trivial, rfl⟩
  | minus inner ih =>
      rcases ih with ⟨u, hu, hinner⟩
      rcases exists_ranked_minus hu with ⟨w, hw, hsymbols, _⟩
      refine ⟨w, hw, ?_⟩
      rw [hsymbols, hinner, symbols]
  | binary op left right ihl ihr =>
      rcases ihl with ⟨l, hl, hleft⟩
      rcases ihr with ⟨r, hr, hright⟩
      rcases exists_ranked_binary op l r hl hr with ⟨w, hw, hsymbols, _⟩
      refine ⟨w, hw, ?_⟩
      rw [hsymbols, hleft, hright, symbols]
  | group inner ih =>
      rcases ih with ⟨u, hu, hinner⟩
      refine ⟨.group u, hu, ?_⟩
      rw [symbols, symbols, hinner]

/-! ### Trees without parentheses -/

/-- A tree without its parentheses, in which a sign is a subtraction from zero. -/
def Term.essence : Term → Term
  | .name text => .name text
  | .number digits => .number digits
  | .minus inner => .binary .subtract (.number "0") inner.essence
  | .binary op left right => .binary op left.essence right.essence
  | .group inner => inner.essence

/-- The symbols after the parenthesis that closes the innermost of the groups that are
open, where `depth` more have been opened since. -/
def afterGroup : (depth : Nat) → List Symbol → List Symbol
  | depth, .openParen :: ss => afterGroup (depth + 1) ss
  | 0, .closeParen :: ss => ss
  | depth + 1, .closeParen :: ss => afterGroup depth ss
  | depth, _ :: ss => afterGroup depth ss
  | _, [] => []

namespace Term

/-- The parentheses that a tree spells close each other. -/
theorem afterGroup_symbols : ∀ (t : Term) (depth : Nat) (ss : List Symbol),
    afterGroup depth (t.symbols ++ ss) = afterGroup depth ss
  | .name _, _, _ | .number _, _, _ => by rw [symbols, List.singleton_append, afterGroup] <;> simp
  | .minus inner, depth, ss => by
      rw [symbols, List.cons_append, afterGroup, afterGroup_symbols inner] <;> simp
  | .binary _ left right, depth, ss => by
      rw [symbols, List.append_assoc, afterGroup_symbols left, List.cons_append, afterGroup,
        afterGroup_symbols right] <;> simp
  | .group inner, depth, ss => by
      rw [symbols, List.cons_append, afterGroup, List.append_assoc, afterGroup_symbols inner,
        List.singleton_append, afterGroup]

/-- A parenthesis is closed in one place only. -/
theorem symbols_eq_of_closed {t u : Term} {ss ss' : List Symbol}
    (h : t.symbols ++ .closeParen :: ss = u.symbols ++ .closeParen :: ss') :
    t.symbols = u.symbols ∧ ss = ss' := by
  have hafter : ss = ss' := by
    have hskip := congrArg (afterGroup 0) h
    rw [afterGroup_symbols, afterGroup_symbols] at hskip
    exact hskip
  rw [hafter] at h
  exact ⟨List.append_cancel_right h, hafter⟩

/-- The number of operators and signs in a tree. -/
def operations : Term → Nat
  | .name _ | .number _ => 0
  | .minus inner => inner.operations + 1
  | .binary _ left right => left.operations + right.operations + 1
  | .group inner => inner.operations

/-- A tree has as many operations without its parentheses. -/
theorem operations_essence (t : Term) : t.essence.operations = t.operations := by
  induction t with
  | name | number => rfl
  | minus inner ih => simp [essence, operations, ih]
  | binary op left right ihl ihr => simp [essence, operations, ihl, ihr]
  | group inner ih => simp [essence, operations, ih]

/-- The operators and signs in a tree are those among its symbols. -/
theorem countP_symbols (t : Term) : t.symbols.countP Symbol.isOperator = t.operations := by
  induction t with
  | name | number => rfl
  | minus inner ih => rw [symbols, operations, List.countP_cons_of_pos rfl, ih]
  | binary op left right ihl ihr =>
      rw [symbols, operations, List.countP_append, List.countP_cons_of_pos rfl, ihl, ihr,
        Nat.add_assoc]
  | group inner ih => simp [symbols, operations, Symbol.isOperator, ih]

/-- A group at the front of a tree has no more operations than the tree. -/
theorem operations_le_of_group {u : Term} {ss : List Symbol} :
    ∀ (t : Term) (ss' : List Symbol),
      t.symbols ++ ss' = .openParen :: (u.symbols ++ .closeParen :: ss) →
        u.operations ≤ t.operations
  | .name _, _, h | .number _, _, h | .minus _, _, h => by simp [symbols] at h
  | .binary op left right, ss', h => by
      rw [symbols, List.append_assoc] at h
      have hleft := operations_le_of_group left _ h
      rw [operations]
      omega
  | .group inner, ss', h => by
      rw [symbols, List.cons_append, List.append_assoc] at h
      have hsymbols := (symbols_eq_of_closed (List.cons.inj h).2).1
      rw [operations, ← countP_symbols u, ← countP_symbols inner, hsymbols]

/-- A group and an operation never spell the same symbols if they are equal without their
parentheses: the first group of the operation would have to hold all of it. -/
theorem group_ne_binary {inner left right : Term} {op : Operator} {ss ss' : List Symbol}
    (hessence : (group inner).essence = (binary op left right).essence) :
    (group inner).symbols ++ ss ≠ (binary op left right).symbols ++ ss' := by
  intro h
  rw [symbols, symbols, List.cons_append, List.append_assoc, List.append_assoc] at h
  have hle := operations_le_of_group left _ h.symm
  have hcount := congrArg operations hessence
  rw [operations_essence, operations_essence, operations, operations] at hcount
  omega

/-- A sign and an operation never spell the same symbols if they are equal without their
parentheses: the operation begins with a number or a parenthesis. -/
theorem minus_ne_binary {inner left right : Term} {op : Operator} {ss ss' : List Symbol}
    (hessence : (minus inner).essence = (binary op left right).essence) :
    (minus inner).symbols ++ ss ≠ (binary op left right).symbols ++ ss' := by
  intro h
  have hzero := (Term.binary.inj hessence).2.1
  rw [symbols, symbols, List.cons_append, List.append_assoc] at h
  cases left with
  | number digits | group inner' => simp [symbols] at h
  | name | minus | binary => simp [essence] at hzero

/-- Trees that spell the same symbols are equal if they are equal without their parentheses. -/
theorem eq_of_essence_eq : ∀ (t u : Term) (ss ss' : List Symbol), t.essence = u.essence →
    t.symbols ++ ss = u.symbols ++ ss' → t = u ∧ ss = ss'
  | .name _, u, ss, ss', hessence, h => by
      cases u with
      | name => simpa [symbols] using h
      | number | minus | binary => simp [essence] at hessence
      | group => simp [symbols] at h
  | .number _, u, ss, ss', hessence, h => by
      cases u with
      | number => simpa [symbols] using h
      | name | minus | binary => simp [essence] at hessence
      | group => simp [symbols] at h
  | .minus inner, u, ss, ss', hessence, h => by
      cases u with
      | name | number => simp [essence] at hessence
      | group => simp [symbols] at h
      | binary => exact absurd h (minus_ne_binary hessence)
      | minus inner' =>
          have hinner := eq_of_essence_eq inner inner' ss ss' (Term.binary.inj hessence).2.2
            (List.cons.inj h).2
          exact ⟨congrArg minus hinner.1, hinner.2⟩
  | .binary op left right, u, ss, ss', hessence, h => by
      cases u with
      | name | number => simp [essence] at hessence
      | minus => exact absurd h.symm (minus_ne_binary hessence.symm)
      | group => exact absurd h.symm (group_ne_binary hessence.symm)
      | binary op' left' right' =>
          rcases Term.binary.inj hessence with ⟨rfl, hl, hr⟩
          rw [symbols, symbols, List.append_assoc, List.append_assoc] at h
          rcases eq_of_essence_eq left left' _ _ hl h with ⟨rfl, hrest⟩
          rcases eq_of_essence_eq right right' ss ss' hr (List.cons.inj hrest).2 with ⟨rfl, hss⟩
          exact ⟨rfl, hss⟩
  | .group inner, u, ss, ss', hessence, h => by
      cases u with
      | name | number | minus => simp [symbols] at h
      | binary => exact absurd h (group_ne_binary hessence)
      | group inner' =>
          rw [symbols, symbols, List.cons_append, List.cons_append, List.append_assoc,
            List.append_assoc] at h
          rcases eq_of_essence_eq inner inner' _ _ hessence (List.cons.inj h).2 with ⟨rfl, hrest⟩
          exact ⟨rfl, (List.cons.inj hrest).2⟩

end Term

/-- Some valuation tells all trees apart that differ in more than parentheses. -/
theorem Valuation.exists_free :
    ∃ v : Valuation, ∀ t u : Term, t.value v = u.value v → t.essence = u.essence := by
  rcases exists_injective_nat Term with ⟨number, hnumber⟩
  -- every tree is its own value, where zero must be zero
  let code (t : Term) : Int := number t - number (.number "0")
  have hcode : Function.Injective code := by
    intro t u h
    apply hnumber
    have hsub : (number t : Int) - number (.number "0") = number u - number (.number "0") := h
    omega
  have hzero : code (.number "0") = 0 := Int.sub_self _
  have : Nonempty Term := ⟨.number "0"⟩
  rcases hcode.hasLeftInverse with ⟨tree, htree⟩
  let v : Valuation :=
    { name := fun text => code (.name text)
      number := fun digits => code (.number digits)
      operation := fun op m n => code (.binary op (tree m) (tree n))
      number_zero := hzero }
  have hvalue : ∀ t : Term, t.value v = code t.essence := by
    intro t
    induction t with
    | name | number => rfl
    | minus inner ih =>
        rw [Term.value, ih, ← hzero]
        exact congrArg code (by rw [htree, htree]; rfl)
    | binary op left right ihl ihr =>
        rw [Term.value, ihl, ihr]
        exact congrArg code (by rw [htree, htree]; rfl)
    | group inner ih => exact ih
  refine ⟨v, ?_⟩
  intro t u h
  rw [hvalue, hvalue] at h
  exact hcode h

end Arithmetic
end Shell
end Shellward
