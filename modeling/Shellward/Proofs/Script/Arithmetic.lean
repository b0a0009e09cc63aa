import Shellward.Proofs.Script.Formatting
import Shellward.Proofs.Shell.Arithmetic
import Shellward.Script.Equality

/-!
# The arithmetic of scripts in the shell

An assignment of arithmetic is compiled to an arithmetic expansion, which the shell
reads by precedence.  Parentheses are kept, and no others are added, so operations
keep their operands.  A minus sign in front of anything but a number becomes a
subtraction from zero, which binds less tightly than the sign did.  So the shell
computes the value of the script unless such a sign stands where only something
tighter than a subtraction may stand.

Main results:

- Theorem `Expr.Derives.cuts_shellText`: the text of an expansion is cut into the
  symbols of its tree.
- Theorem `Expr.Derives.ranked_toTerm_iff`: the shell reads this tree exactly if no
  minus sign is in such a place.
- Theorem `compile_arithmetic_keeps_value_iff`: the shell computes the value of
  the script, whatever the operators mean, exactly then.
-/

namespace Shellward

open Token Shell.Arithmetic

variable {π : Type}

/-! ### Arithmetic in scripts -/

namespace Expr

/-- Names, numbers and what operators, signs and parentheses make of them. -/
def Numeric : Expr π → Prop
  | .literal .number _ _ | .name .. => True
  | .binary _ left right _ => left.Numeric ∧ right.Numeric
  | .negate inner _ | .group inner _ => inner.Numeric
  | .literal .. | .call .. => False

/-- Expressions that are computed in the shell: operations, groups, and signs in front of
anything but a number. -/
def Computed : Expr π → Prop
  | .binary .. | .group .. => True
  | .negate inner _ => inner.number? = none
  | .literal .. | .name .. | .call .. => False

/-- The value of arithmetic, where names have the values of the shell's variables and a
sign subtracts from zero. -/
def value (v : Valuation) : Expr π → Int
  | .literal _ text _ => v.number text
  | .name text _ => v.name (Text.upper text)
  | .binary op left right _ => v.operation op (left.value v) (right.value v)
  | .negate inner _ => v.operation .subtract 0 (inner.value v)
  | .group inner _ => inner.value v
  | .call .. => 0

/-- Whether a minus sign stands in front of anything but a number. -/
def isSubtracted : Expr π → Bool
  | .negate inner _ => inner.number?.isNone
  | _ => false

/-- No minus sign in front of anything but a number is the operand of another sign, the
left operand of a multiplication or division, or the right operand of an operation that
computes a number. -/
def NegatesSafely : Expr π → Prop
  | .binary op left right _ =>
      left.NegatesSafely ∧ right.NegatesSafely ∧
        (left.isSubtracted = true → op ∉ [.multiply, .divide, .remainder]) ∧
        (right.isSubtracted = true → op.isArithmetic = false)
  | .negate inner _ => inner.NegatesSafely ∧ inner.isSubtracted = false
  | .group inner _ => inner.NegatesSafely
  | .literal .. | .name .. | .call .. => True

/-! ### The tree of the expansion -/

/-- The tree that the text of an expansion is written from. -/
def toTerm : Expr π → Term
  | .literal _ text _ => .number text
  | .name text _ => .name (Text.upper text)
  | .binary op left right _ => .binary op left.toTerm right.toTerm
  | .negate inner _ =>
      match inner.number? with
      | some number => .minus (.number number)
      | none => .binary .subtract (.number "0") inner.toTerm
  | .group inner _ => .group inner.toTerm
  | .call .. => .number "0"

/-- Only a number literal is a number. -/
theorem exists_of_number? {e : Expr π} {number : String} (h : e.number? = some number) :
    ∃ place, e = .literal .number number place := by
  unfold number? at h
  split at h
  · rw [Option.some.inj h]
    exact ⟨_, rfl⟩
  · simp at h

/-- Written signs and subtractions have the same value. -/
theorem value_toTerm (v : Valuation) : ∀ e : Expr π, e.Numeric → e.toTerm.value v = e.value v
  | .literal .., _ | .name .., _ => rfl
  | .binary op left right _, ⟨hleft, hright⟩ => by
      rw [toTerm, Term.value, value, value_toTerm v left hleft, value_toTerm v right hright]
  | .group inner _, h => by
      rw [toTerm, Term.value, value]
      exact value_toTerm v inner h
  | .negate inner _, h => by
      rw [toTerm, value]
      cases hnumber : inner.number? with
      | some number =>
          rcases exists_of_number? hnumber with ⟨place, rfl⟩
          rfl
      | none =>
          have hinner : inner.toTerm.value v = inner.value v := value_toTerm v inner h
          simp only [Term.value, v.number_zero, hinner]

/-! ### Where the shell reads this tree -/

/-- A sign in front of anything but a number binds like a subtraction. -/
theorem rank_toTerm_of_isSubtracted {e : Expr π} (h : e.isSubtracted = true) :
    e.toTerm.rank = operatorRank .subtract := by
  cases e with
  | negate inner place =>
      have hnumber : inner.number? = none := Option.isNone_iff_eq_none.mp h
      rw [toTerm, hnumber]
      rfl
  | literal | name | call | binary | group => simp [isSubtracted] at h

/-- The ranks of operators are those of their levels, counted from one. -/
theorem operatorRank_eq (op : Operator) : operatorRank op = op.level.rank + 1 := by
  cases op <;> rfl

/-- A sign in front of a number holds together as tightly as signs do. -/
theorem rank_toTerm_negate {inner : Expr π} {place : π}
    (h : (negate inner place).isSubtracted = false) :
    (negate inner place).toTerm.rank = signRank := by
  have hnumber : inner.number?.isNone = false := h
  have hsigned := Option.isNone_eq_false_iff.mp hnumber
  rcases Option.isSome_iff_exists.mp hsigned with ⟨number, hsome⟩
  rw [toTerm, hsome]
  rfl

/-- Other phrases hold together as tightly as their level. -/
theorem Derives.rank_lt_toTerm : ∀ {level : Level} {input rest : List Token} {e : Expr Span},
    e.Derives level input rest → e.isSubtracted = false → level.rank < e.toTerm.rank
  | _, _, _, _, .literal .., _ => Nat.lt_succ_self Level.call.rank
  | _, _, _, _, .name .., _ => Nat.lt_succ_self Level.call.rank
  | _, _, _, _, .group .., _ => Nat.lt_succ_self Level.call.rank
  | _, _, _, _, .call .., _ => Nat.lt_succ_self Level.call.rank
  | _, _, _, _, .negate .., h => Nat.lt_of_lt_of_eq (Nat.lt_succ_self _) (rank_toTerm_negate h).symm
  | _, _, _, _, .binary op .., _ => Nat.lt_of_succ_le (Nat.le_of_eq (operatorRank_eq op).symm)
  | _, _, _, _, .tighter hinner, h =>
      Nat.lt_of_le_of_lt (Level.rank_le_tighter _) (hinner.rank_lt_toTerm h)

/-- The left operand of an operation keeps its place unless it is a sign that an operator
as tight as a multiplication takes apart. -/
theorem Derives.left_rank_iff {op : Operator} {input rest : List Token} {e : Expr Span}
    (h : e.Derives op.level input rest) :
    operatorRank op ≤ e.toTerm.rank ↔
      (e.isSubtracted = true → op ∉ [.multiply, .divide, .remainder]) := by
  cases hsign : e.isSubtracted with
  | false =>
      have hrank := h.rank_lt_toTerm hsign
      rw [operatorRank_eq]
      exact ⟨fun _ hfalse => Bool.noConfusion hfalse, fun _ => hrank⟩
  | true =>
      rw [rank_toTerm_of_isSubtracted hsign]
      cases op <;> decide

/-- The right operand of an operation keeps its place unless it is a sign that an operator
as tight as a subtraction takes apart. -/
theorem Derives.right_rank_iff {op : Operator} {input rest : List Token} {e : Expr Span}
    (h : e.Derives op.level.tighter input rest) :
    operatorRank op < e.toTerm.rank ↔ (e.isSubtracted = true → op.isArithmetic = false) := by
  cases hsign : e.isSubtracted with
  | false =>
      have hrank := h.rank_lt_toTerm hsign
      rw [op.rank_tighter_level, ← op.rank_level, ← operatorRank_eq] at hrank
      exact ⟨fun _ hfalse => Bool.noConfusion hfalse, fun _ => hrank⟩
  | true =>
      rw [rank_toTerm_of_isSubtracted hsign]
      cases op <;> decide

/-- The operand of a sign that becomes a subtraction keeps its place unless it is such a
sign itself. -/
theorem Derives.inner_rank_iff {input rest : List Token} {e : Expr Span}
    (h : e.Derives .negation input rest) :
    operatorRank .subtract < e.toTerm.rank ↔ e.isSubtracted = false := by
  cases hsign : e.isSubtracted with
  | false =>
      have hrank := h.rank_lt_toTerm hsign
      have hlevel : operatorRank .subtract < Level.negation.rank := by decide
      exact ⟨fun _ => rfl, fun _ => Nat.lt_trans hlevel hrank⟩
  | true =>
      rw [rank_toTerm_of_isSubtracted hsign]
      decide

/-- The tree of an expansion is how the shell reads it exactly if no minus sign stands where
a subtraction may not stand. -/
theorem Derives.ranked_toTerm_iff : ∀ {level : Level} {input rest : List Token} {e : Expr Span},
    e.Derives level input rest → (e.toTerm.Ranked ↔ e.NegatesSafely)
  | _, _, _, _, .literal .. | _, _, _, _, .name .. | _, _, _, _, .call .. => Iff.rfl
  | _, _, _, _, .group _ h _ => h.ranked_toTerm_iff
  | _, _, _, _, @Derives.negate _ _ _ inner _ h => by
      have hinner := h.ranked_toTerm_iff
      rw [toTerm, NegatesSafely]
      cases hnumber : inner.number? with
      | some number =>
          rcases exists_of_number? hnumber with ⟨place, rfl⟩
          exact ⟨fun _ => ⟨trivial, rfl⟩, fun _ => ⟨Nat.le_succ signRank, trivial⟩⟩
      | none =>
          simp only [Term.Ranked, h.inner_rank_iff, hinner]
          exact ⟨fun ⟨_, hsign, _, hsafe⟩ => ⟨hsafe, hsign⟩,
            fun ⟨hsafe, hsign⟩ => ⟨by decide, hsign, trivial, hsafe⟩⟩
  | _, _, _, _, .binary op hleft _ hright => by
      rw [toTerm, NegatesSafely, Term.Ranked, hleft.left_rank_iff, hright.right_rank_iff,
        hleft.ranked_toTerm_iff, hright.ranked_toTerm_iff]
      exact ⟨fun ⟨hl, hr, hlsafe, hrsafe⟩ => ⟨hlsafe, hrsafe, hl, hr⟩,
        fun ⟨hlsafe, hrsafe, hl, hr⟩ => ⟨hl, hr, hlsafe, hrsafe⟩⟩
  | _, _, _, _, .tighter h => h.ranked_toTerm_iff

/-! ### The text of the expansion -/

/-- The text of an expression inside an arithmetic expansion. -/
def shellText (e : Expr π) : String :=
  (e.toShell .arithmetic).value.layout false

/-- A text without a quote in front is written as it is. -/
theorem bareText_eq_self {text : String} (h : text.toList.head? ≠ some '\x22') :
    Shell.bareText text = text := by
  have hnone : Shell.unquote? text.toList = none := by
    unfold Shell.unquote?
    split
    · rename_i rest heq
      rw [heq] at h
      exact absurd rfl h
    · rfl
  rw [Shell.bareText, hnone]

theorem shellText_binary (op : Operator) (left right : Expr π) (place : π) :
    (binary op left right place).shellText =
      left.shellText ++ " " ++ op.spelling ++ " " ++ right.shellText := by
  rw [shellText, toShell]
  rfl

theorem shellText_group (inner : Expr π) (place : π) :
    (group inner place).shellText = "(" ++ " " ++ inner.shellText ++ " " ++ ")" := by
  have hclose : " )" = " " ++ ")" := rfl
  have hlayout : (group inner place).shellText = "( " ++ inner.shellText ++ " )" := by
    rw [shellText, toShell]
    rfl
  rw [hlayout, hclose, ← String.append_assoc]
  rfl

/-- A sign in front of anything but a number is written as a subtraction from zero. -/
theorem shellText_negate {inner : Expr π} (h : inner.number? = none) (place : π) :
    (negate inner place).shellText = "0" ++ " " ++ "-" ++ " " ++ inner.shellText := by
  rw [shellText, toShell, h]
  rfl

/-- A sign in front of a number is written before the number. -/
theorem shellText_negate_number {inner : Expr π} {number : String}
    (h : inner.number? = some number) (place : π) :
    (negate inner place).shellText = "-" ++ number := by
  rw [shellText, toShell, h]
  exact bareText_eq_self (by simp)

end Expr

/-! ### The symbols of the text -/

/-- A text ends or goes on with a space. -/
def Apart (cs : List Char) : Prop :=
  cs.head?.all (· == ' ') = true

/-- A symbol that may not hold a space stops where a text ends or goes on with one. -/
theorem Apart.stops {cs : List Char} (h : Apart cs) {p : Char → Bool} (hp : p ' ' = false) :
    cs.head?.any p = false := by
  cases cs with
  | nil => rfl
  | cons c cs =>
      have hc : c = ' ' := by simpa [Apart] using h
      rw [hc]
      exact hp

/-- The shell takes the bytes of names, in upper case, for characters of names. -/
theorem isNameChar_of_isWordByte {b : UInt8} (h : isWordByte b = true) :
    isNameChar (Char.ofNat b.toNat).toUpper = true ∧
      (isLetter b = true → isNameStart (Char.ofNat b.toNat).toUpper = true) := by
  have hall : ∀ n < 128, isWordByte (UInt8.ofNat n) = true →
      isNameChar (Char.ofNat n).toUpper = true ∧
        (isLetter (UInt8.ofNat n) = true → isNameStart (Char.ofNat n).toUpper = true) := by
    decide +kernel
  exact Utf8.of_ascii (fun b c => isWordByte b = true → isNameChar c.toUpper = true ∧
    (isLetter b = true → isNameStart c.toUpper = true)) hall (lt_ascii_of_isWordByte h) h

/-- A byte that is a digit is a character that is a digit. -/
theorem isDigit_char {b : UInt8} (h : Token.isDigit b = true) :
    (Char.ofNat b.toNat).isDigit = true := by
  have hall : ∀ n < 128, Token.isDigit (UInt8.ofNat n) = true →
      (Char.ofNat n).isDigit = true := by
    decide +kernel
  exact Utf8.of_ascii (fun b c => Token.isDigit b = true → c.isDigit = true) hall
    (lt_ascii_of_isWordByte (isWordByte_of_isDigit h)) h

/-- A text is cut into symbols, whatever follows it after a space. -/
def Cuts (text : String) (symbols : List Symbol) : Prop :=
  ∀ cs, Apart cs → cut (text.toList ++ cs) = (cut cs).map (symbols ++ ·)

/-- Texts with a space between them are cut one after the other. -/
theorem Cuts.space {a b : String} {xs ys : List Symbol} (ha : Cuts a xs) (hb : Cuts b ys) :
    Cuts (a ++ " " ++ b) (xs ++ ys) := by
  intro cs hcs
  have hspace : (a ++ " " ++ b).toList ++ cs = a.toList ++ (' ' :: (b.toList ++ cs)) := by
    simp [String.toList_append]
  have happart : Apart (' ' :: (b.toList ++ cs)) := rfl
  rw [hspace, ha _ happart, cut_space, hb cs hcs, Option.map_map]
  congr 1
  funext ss
  exact (List.append_assoc xs ys ss).symm

/-- An operator is one symbol. -/
theorem cuts_operator (op : Operator) : Cuts op.spelling [.operator op] := by
  intro cs hcs
  exact cut_operator op (hcs.stops (p := isSign) (by decide))

theorem cuts_open : Cuts "(" [.openParen] :=
  fun cs _ => cut_open cs

theorem cuts_close : Cuts ")" [.closeParen] :=
  fun cs _ => cut_close cs

/-- The zero that is subtracted from is one symbol. -/
theorem cuts_zero : Cuts "0" [.number "0"] := by
  intro cs hcs
  exact cut_number (c := '0') (by decide) (fun _ h => absurd h List.not_mem_nil)
    (hcs.stops (p := Char.isDigit) (by decide))

/-- A name in upper case after a dollar sign is one symbol. -/
theorem Token.cuts_name {t : Token} (h : Spelling t.kind t.bytes)
    (hkind : t.kind = .identifier) :
    Cuts ("$" ++ Text.upper t.lexeme) [.name (Text.upper t.lexeme)] := by
  intro cs hcs
  rcases h.of_identifier hkind with ⟨b, body, hbytes, hletter, hbody, _⟩
  have hb := isNameChar_of_isWordByte (isWordByte_of_isLetter hletter)
  have hupper : (Text.upper t.lexeme).toList =
      (Char.ofNat b.toNat).toUpper :: body.map fun d => (Char.ofNat d.toNat).toUpper := by
    rw [Text.upper, String.toList_ofList, lexeme, Utf8.decode, String.toList_ofList, hbytes,
      Utf8.decodeChars_of_ascii (lt_ascii_of_word hletter hbody), List.map_map]
    rfl
  have hrun : ∀ c ∈ (Char.ofNat b.toNat).toUpper ::
      body.map fun d => (Char.ofNat d.toNat).toUpper, isNameChar c = true := by
    rw [List.forall_mem_cons, List.forall_mem_map]
    exact ⟨hb.1, fun d hd => (isNameChar_of_isWordByte (hbody d hd)).1⟩
  have hcut := cut_name (hb.2 hletter) hrun (hcs.stops (p := isNameChar) (by decide))
  rw [← hupper, String.ofList_toList] at hcut
  rw [String.toList_append]
  exact hcut

/-- The characters of a number are digits. -/
theorem Token.chars_of_number {t : Token} (h : Spelling t.kind t.bytes)
    (hkind : t.kind = .number) :
    ∃ c run, t.lexeme.toList = c :: run ∧ c.isDigit = true ∧ ∀ d ∈ run, d.isDigit = true := by
  rcases h.of_number hkind with ⟨b, body, hbytes, hdigit, hbody⟩
  refine ⟨Char.ofNat b.toNat, body.map fun d => Char.ofNat d.toNat, ?_, isDigit_char hdigit, ?_⟩
  · rw [lexeme, Utf8.decode, String.toList_ofList, hbytes,
      Utf8.decodeChars_of_ascii (lt_ascii_of_digits hdigit hbody)]
    rfl
  · rw [List.forall_mem_map]
    exact fun d hd => isDigit_char (hbody d hd)

/-- A number is one symbol. -/
theorem Token.cuts_number {t : Token} (h : Spelling t.kind t.bytes) (hkind : t.kind = .number) :
    Cuts t.lexeme [.number t.lexeme] := by
  intro cs hcs
  rcases t.chars_of_number h hkind with ⟨c, run, hchars, hc, hrun⟩
  have hcut := cut_number hc hrun (hcs.stops (p := Char.isDigit) (by decide))
  rw [← hchars, String.ofList_toList] at hcut
  exact hcut

/-- A minus sign right before a number is a symbol of its own. -/
theorem Token.cuts_negative {t : Token} (h : Spelling t.kind t.bytes)
    (hkind : t.kind = .number) :
    Cuts ("-" ++ t.lexeme) [.operator .subtract, .number t.lexeme] := by
  intro cs hcs
  rcases t.chars_of_number h hkind with ⟨c, run, hchars, hc, hrun⟩
  have hsign : (t.lexeme.toList ++ cs).head?.any isSign = false := by
    rw [hchars]
    exact isSign_eq_false_of_isDigit hc
  rw [String.toList_append, List.append_assoc]
  refine (cut_operator .subtract hsign).trans ?_
  rw [t.cuts_number h hkind cs hcs, Option.map_map]
  rfl

namespace Expr

/-- A number is written as it stands. -/
theorem shellText_number {t : Token} (h : Spelling t.kind t.bytes) (hkind : t.kind = .number)
    (place : π) : (literal .number t.lexeme place).shellText = t.lexeme := by
  rcases t.chars_of_number h hkind with ⟨c, run, hchars, hc, _⟩
  have hquote : t.lexeme.toList.head? ≠ some '\x22' := by
    rw [hchars]
    intro heq
    rw [Option.some.inj heq] at hc
    exact absurd hc (by decide)
  exact bareText_eq_self hquote

/-- A number in a tree is a token. -/
theorem Derives.exists_number {number : String} :
    ∀ {level : Level} {input rest : List Token} {e : Expr Span}, e.Derives level input rest →
      e.number? = some number → ∃ t ∈ input, t.kind = .number ∧ t.lexeme = number
  | _, _, _, _, @Derives.literal t _ kind hkind, h => by
      cases kind with
      | number => exact ⟨t, List.mem_cons_self, hkind, Option.some.inj h⟩
      | string | pattern | atom => exact absurd h (by simp [number?])
  | _, _, _, _, .name .., h | _, _, _, _, .group .., h | _, _, _, _, .call .., h
  | _, _, _, _, .negate .., h | _, _, _, _, .binary .., h => by simp [number?] at h
  | _, _, _, _, .tighter hinner, h => hinner.exists_number h

/-- The text of a sign and its operand is cut into the symbols of the tree. -/
theorem Derives.cuts_negate {input rest : List Token} {inner : Expr Span}
    (h : inner.Derives .negation input rest)
    (hinput : ∀ t ∈ input, t.kind ≠ .eof → Spelling t.kind t.bytes)
    (hinner : Cuts inner.shellText inner.toTerm.symbols) (place : Span) :
    Cuts (Expr.negate inner place).shellText (Expr.negate inner place).toTerm.symbols := by
  cases hnumber : inner.number? with
  | some number =>
      rcases h.exists_number hnumber with ⟨t, ht, hkind, rfl⟩
      have hspelling := hinput t ht (ne_of_eq_of_ne hkind (by decide))
      rw [shellText_negate_number hnumber, toTerm, hnumber]
      exact t.cuts_negative hspelling hkind
  | none =>
      rw [shellText_negate hnumber, toTerm, hnumber]
      exact (cuts_zero.space (cuts_operator .subtract)).space hinner

/-- A group is cut into its parentheses and what is inside. -/
theorem cuts_group {inner : Expr π} (hinner : Cuts inner.shellText inner.toTerm.symbols)
    (place : π) : Cuts (group inner place).shellText (group inner place).toTerm.symbols := by
  rw [shellText_group, toTerm, Term.symbols]
  exact (cuts_open.space hinner).space cuts_close

/-- An operation is cut into its operands and its operator. -/
theorem cuts_binary {left right : Expr π} (op : Operator)
    (hleft : Cuts left.shellText left.toTerm.symbols)
    (hright : Cuts right.shellText right.toTerm.symbols) (place : π) :
    Cuts (binary op left right place).shellText
      (binary op left right place).toTerm.symbols := by
  rw [shellText_binary, toTerm, Term.symbols, ← List.singleton_append, ← List.append_assoc]
  exact (hleft.space (cuts_operator op)).space hright

/-- The text of an expansion is cut into the symbols of its tree. -/
theorem Derives.cuts_shellText : ∀ {level : Level} {input rest : List Token} {e : Expr Span},
    e.Derives level input rest → (∀ t ∈ input, t.kind ≠ .eof → Spelling t.kind t.bytes) →
      e.Numeric → Cuts e.shellText e.toTerm.symbols
  | _, _, _, _, @Derives.literal t _ .number hkind, hinput, _ => by
      have hspelling := hinput t List.mem_cons_self (ne_of_eq_of_ne hkind (by decide))
      rw [shellText_number hspelling hkind]
      exact t.cuts_number hspelling hkind
  | _, _, _, _, @Derives.name t _ hkind, hinput, _ =>
      t.cuts_name (hinput t List.mem_cons_self (ne_of_eq_of_ne hkind (by decide))) hkind
  | _, _, _, _, .call .., _, hnumeric => hnumeric.elim
  | _, _, _, _, .group _ h _, hinput, hnumeric =>
      cuts_group (h.cuts_shellText (fun t ht => hinput t (List.mem_cons_of_mem _ ht)) hnumeric) _
  | _, _, _, _, .negate _ h, hinput, hnumeric => by
      have hmore := fun t ht => hinput t (List.mem_cons_of_mem _ ht)
      exact h.cuts_negate hmore (h.cuts_shellText hmore hnumeric) _
  | _, _, _, _, .binary op hleft _ hright, hinput, hnumeric => by
      have hmore := fun t ht => hinput t (hleft.suffix.mem (List.mem_cons_of_mem _ ht))
      exact cuts_binary op (hleft.cuts_shellText hinput hnumeric.1)
        (hright.cuts_shellText hmore hnumeric.2) _
  | _, _, _, _, .tighter h, hinput, hnumeric => h.cuts_shellText hinput hnumeric

/-! ### Compiling an assignment -/

/-- Arithmetic is flat. -/
theorem flatten_of_numeric : ∀ (e : Expr π), e.Numeric → ∀ depth n : Nat,
    e.flatten depth n = ⟨e, [], n⟩
  | .literal .., _, _, _ | .name .., _, _, _ => by
      rw [flatten]
      rfl
  | .binary _ left right _, ⟨hleft, hright⟩, depth, n => by
      rw [flatten]
      simp only [Flatten.bind_apply, flatten_of_numeric left hleft,
        flatten_of_numeric right hright, Flatten.pure_apply, List.append_nil]
  | .negate inner _, h, depth, n => by
      have hinner : ∀ depth n : Nat, inner.flatten depth n = ⟨inner, [], n⟩ :=
        flatten_of_numeric inner h
      rw [flatten]
      simp only [Flatten.bind_apply, hinner, Flatten.pure_apply, List.append_nil]
  | .group inner _, h, depth, n => by
      have hinner : ∀ depth n : Nat, inner.flatten depth n = ⟨inner, [], n⟩ :=
        flatten_of_numeric inner h
      rw [flatten]
      simp only [Flatten.bind_apply, hinner, Flatten.pure_apply, List.append_nil]

/-- Nothing is wrong with arithmetic. -/
theorem problems_toShell : ∀ (e : Expr π), e.Numeric → ∀ context : Context,
    (e.toShell context).problems = []
  | .literal .., _, _ | .name .., _, _ => by rw [toShell, Checked.problems_pure]
  | .binary _ left right _, ⟨hleft, hright⟩, context => by
      rw [toShell]
      simp only [Checked.problems_bind, Checked.problems_pure, problems_toShell left hleft,
        problems_toShell right hright, List.append_nil]
  | .negate inner _, h, context => by
      have hinner : ∀ context : Context, (inner.toShell context).problems = [] :=
        problems_toShell inner h
      rw [toShell]
      split
      · rfl
      · simp only [Checked.problems_bind, Checked.problems_pure, hinner, List.append_nil]
  | .group inner _, h, context => by
      have hinner : ∀ context : Context, (inner.toShell context).problems = [] :=
        problems_toShell inner h
      rw [toShell]
      simp only [Checked.problems_bind, Checked.problems_pure, hinner, List.append_nil]

/-- As a value, an operation is put into an arithmetic expansion. -/
theorem layout_toShell_value {e : Expr π} (h : e.Computed) :
    (e.toShell .value).value.layout false = "$(( " ++ e.shellText ++ " ))" := by
  cases e with
  | binary op left right place =>
      rw [shellText, toShell, toShell]
      rfl
  | group inner place =>
      rw [shellText, toShell, toShell]
      rfl
  | negate inner place =>
      have hnumber : inner.number? = none := h
      rw [shellText, toShell, toShell, hnumber]
      rfl
  | literal | name | call => exact h.elim

end Expr

/-- The value of an assignment that parses is an expression of the grammar, and its tokens
are those of the script. -/
theorem Script.derives_of_assign {source : Source} {target : String} {targetPlace place : Span}
    {e : Expr Span} (h : Script.parse source = .ok ⟨[.assign target targetPlace e place]⟩) :
    ∃ input rest, e.Derives .equality input rest ∧
      ∀ t ∈ input, t.kind ≠ .eof → Spelling t.kind t.bytes := by
  rcases (Script.read_eq_iff.mp (Script.parse_eq_ok_iff.mp h)).1 with ⟨_, _, hstatements⟩
  generalize hsource : Token.ofSource source = tokens at hstatements
  have hspelling : ∀ t ∈ tokens, t.kind ≠ .eof → Spelling t.kind t.bytes := by
    rw [← hsource]
    exact fun t ht => spelling_of_mem_ofSource ht
  cases hstatements with
  | cons hassign _ =>
      cases hassign with
      | assign _ _ _ hvalue _ =>
          exact ⟨_, _, hvalue, fun t ht => hspelling t (by simp [ht])⟩

/-- A line outside of all blocks is not indented. -/
theorem Line.render_zero (width : Nat) (text : String) : render width ⟨0, text⟩ = text ++ "\n" := by
  have hindent : Text.replicate (0 * width) ' ' = "" := by
    rw [Nat.zero_mul]
    rfl
  rw [render, hindent, String.empty_append]

/-- The text of a shell script with one assignment. -/
theorem Shell.Script.layout_assign (target : String) (value : Shell.Expr) (width : Nat) :
    Shell.Script.layout ⟨[.assign target value]⟩ width =
      "#!/bin/sh\n\n" ++ (target ++ "=" ++ value.layout false ++ "\n") := by
  have hlines : Shell.Script.lines ⟨[.assign target value]⟩ =
      [⟨0, "#!/bin/sh"⟩, ⟨0, ""⟩, ⟨0, target ++ "=" ++ value.layout false⟩] := rfl
  rw [Shell.Script.layout, hlines, Line.renderAll, List.map_cons, List.map_cons, List.map_cons,
    List.map_nil, String.join_cons, String.join_cons, String.join_cons, String.join_nil,
    Line.render_zero, Line.render_zero, Line.render_zero, ← String.append_assoc,
    String.append_empty]
  rfl

/-- An assignment of arithmetic is compiled to one line with an arithmetic expansion. -/
theorem compile_assign {source : Source} {target : String} {targetPlace place : Span}
    {e : Expr Span} (h : Script.parse source = .ok ⟨[.assign target targetPlace e place]⟩)
    (hnumeric : e.Numeric) (hcomputed : e.Computed) (width : Nat) :
    compile source width =
      .ok ("#!/bin/sh\n\n" ++ (Text.upper target ++ "=$(( " ++ e.shellText ++ " ))\n")) := by
  have hflat : Script.flatten ⟨[.assign target targetPlace e place]⟩ =
      ⟨[.assign target targetPlace e place]⟩ := by
    simp [Script.flatten, Script.flattenFrom, Stmt.flattenAll, Stmt.flatten,
      Expr.flatten_of_numeric e hnumeric]
  have hshell : Script.toShell ⟨[.assign target targetPlace e place]⟩ =
      .ok ⟨[.assign (Text.upper target) (e.toShell .value).value]⟩ := by
    simp [Script.toShell, Stmt.allToShell, Stmt.toShell, Expr.problems_toShell e hnumeric]
  have hopen : "=$(( " = "=" ++ "$(( " := rfl
  have hclose : " ))\n" = " ))" ++ "\n" := rfl
  rw [compile, h]
  change Script.compile (Script.flatten _) width = _
  rw [hflat, Script.compile, Script.express, hshell]
  change Except.ok (Shell.Script.layout _ width) = _
  rw [Shell.Script.layout_assign, e.layout_toShell_value hcomputed, hopen, hclose]
  simp only [String.append_assoc]

/-- An assignment of arithmetic is compiled to an arithmetic expansion, and the shell reads
its text in one way.  What it computes is the value of the script, whatever the values of
names and numbers and the meaning of operators are, exactly if no minus sign in front of
anything but a number stands where a subtraction may not stand. -/
theorem compile_arithmetic_keeps_value_iff {source : Source} {target : String}
    {targetPlace place : Span} {e : Expr Span}
    (hparse : Script.parse source = .ok ⟨[.assign target targetPlace e place]⟩)
    (hnumeric : e.Numeric) (hcomputed : e.Computed) (width : Nat) :
    ∃ text t, compile source width =
        .ok ("#!/bin/sh\n\n" ++ (Text.upper target ++ "=$(( " ++ text ++ " ))\n")) ∧
      Reads text t ∧ (∀ u, Reads text u → u = t) ∧
      ((∀ v : Valuation, t.value v = e.value v) ↔ e.NegatesSafely) := by
  rcases Script.derives_of_assign hparse with ⟨input, rest, hderives, hspelling⟩
  rcases e.toTerm.exists_ranked with ⟨t, hranked, hsymbols⟩
  have hcut : cut e.shellText.toList = some t.symbols := by
    have hcuts := hderives.cuts_shellText hspelling hnumeric [] rfl
    rw [List.append_nil, cut, Option.map_some, List.append_nil] at hcuts
    rw [hcuts, hsymbols]
  refine ⟨e.shellText, t, compile_assign hparse hnumeric hcomputed width, ⟨hcut, hranked⟩, ?_, ?_⟩
  · rintro u ⟨hu, huRanked⟩
    rw [hcut] at hu
    exact Term.eq_of_symbols_eq huRanked hranked (Option.some.inj hu).symm
  · rw [← hderives.ranked_toTerm_iff]
    constructor
    · intro hvalue
      -- a valuation that tells trees apart shows that the text is read as it was written
      rcases Valuation.exists_free with ⟨v, hfree⟩
      have hessence := hfree t e.toTerm (by rw [hvalue v, e.value_toTerm v hnumeric])
      have heq := (Term.eq_of_essence_eq t e.toTerm [] [] hessence (by rw [hsymbols])).1
      rw [← heq]
      exact hranked
    · intro hterm v
      rw [Term.eq_of_symbols_eq hranked hterm hsymbols, e.value_toTerm v hnumeric]

/-- The value of `let x = -a + 2 * (b - -3)`. -/
def Expr.sumSample : Expr Span :=
  .binary .add (.negate (.name "a" ⟨9, 10⟩) ⟨8, 10⟩)
    (.binary .multiply (.literal .number "2" ⟨13, 14⟩)
      (.group (.binary .subtract (.name "b" ⟨18, 19⟩)
        (.negate (.literal .number "3" ⟨23, 24⟩) ⟨22, 24⟩) ⟨18, 24⟩) ⟨17, 25⟩) ⟨13, 25⟩) ⟨8, 25⟩

/-- The value of `let x = 2 * -a`. -/
def Expr.productSample : Expr Span :=
  .binary .multiply (.literal .number "2" ⟨8, 9⟩) (.negate (.name "a" ⟨13, 14⟩) ⟨12, 14⟩) ⟨8, 14⟩

/-- A sum keeps its value in the shell, and a product with a negated factor does not. -/
theorem compile_arithmetic_keeps_value_iff_samples :
    (∃ text t, compile (Utf8.encode "let x = -a + 2 * (b - -3)\n") defaultWidth =
        .ok ("#!/bin/sh\n\n" ++ ("X" ++ "=$(( " ++ text ++ " ))\n")) ∧
      Reads text t ∧ ∀ v : Valuation, t.value v = Expr.sumSample.value v) ∧
    ∃ text t, compile (Utf8.encode "let x = 2 * -a\n") defaultWidth =
        .ok ("#!/bin/sh\n\n" ++ ("X" ++ "=$(( " ++ text ++ " ))\n")) ∧
      Reads text t ∧ ∃ v : Valuation, t.value v ≠ Expr.productSample.value v := by
  constructor
  · have hread : Script.read (Utf8.encode "let x = -a + 2 * (b - -3)\n") =
        (⟨[.assign "x" ⟨4, 5⟩ Expr.sumSample ⟨0, 25⟩]⟩, []) := by decide +kernel
    rcases compile_arithmetic_keeps_value_iff (Script.parse_eq_ok_iff.mpr hread)
      ⟨trivial, trivial, trivial, trivial⟩ trivial defaultWidth with
      ⟨text, t, hcompile, hreads, _, hiff⟩
    have hsafe : Expr.sumSample.NegatesSafely := by
      simp [Expr.sumSample, Expr.NegatesSafely, Expr.isSubtracted, Expr.number?]
    exact ⟨text, t, hcompile, hreads, hiff.mpr hsafe⟩
  · have hread : Script.read (Utf8.encode "let x = 2 * -a\n") =
        (⟨[.assign "x" ⟨4, 5⟩ Expr.productSample ⟨0, 14⟩]⟩, []) := by decide +kernel
    rcases compile_arithmetic_keeps_value_iff (Script.parse_eq_ok_iff.mpr hread)
      ⟨trivial, trivial⟩ trivial defaultWidth with ⟨text, t, hcompile, hreads, _, hiff⟩
    have hunsafe : ¬ Expr.productSample.NegatesSafely := by
      simp [Expr.productSample, Expr.NegatesSafely, Expr.isSubtracted, Expr.number?,
        Operator.isArithmetic]
    exact ⟨text, t, hcompile, hreads, Classical.not_forall.mp (mt hiff.mp hunsafe)⟩

end Shellward
