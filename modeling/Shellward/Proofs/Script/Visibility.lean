import Shellward.Proofs.Grammar.Literals
import Shellward.Proofs.Script.Arithmetic
import Shellward.Proofs.Script.Marks
import Shellward.Proofs.Script.Substitution
import Shellward.Proofs.Shell.Bodies

/-!
# What shows in shell scripts

Every argument of a command and every statement of a script has a text in the shell script,
with one exception: a pattern between single quotes loses its quotes, so an empty pattern has
no text.

Main results:

- Theorem `Expr.Expressed.shows`: a value shows unless it is an empty pattern.
- Theorem `Expr.Expressed.forall₂_arguments`: the arguments of the commands in a shell
  expression are what the arguments of the commands in the expression become.
- Theorem `compile_shows_iff`: every argument, statement and body of a compiled script shows
  exactly if no argument of a command and no statement is an empty pattern.
-/

namespace Shellward

variable {π : Type}

/-! ### Texts of literals -/

/-- A text that begins with a letter or a digit shows. -/
theorem Text.shows_of_isAlphanum {text : String} {c : Char} {rest : List Char}
    (htext : text.toList = c :: rest) (hc : c.isAlphanum = true) : Text.Shows text := by
  have hall : ∀ n < 128, (Char.ofNat n).isAlphanum = true →
      isBlank (Char.ofNat n) = false ∧ Char.ofNat n ≠ '#' := by
    decide +kernel
  have hascii : c.toNat < 128 := by
    rcases Bool.or_eq_true_iff.mp hc with hletter | hdigit
    · rcases Bool.or_eq_true_iff.mp hletter with hupper | hlower
      · exact Nat.lt_of_le_of_lt (of_decide_eq_true hupper).2 (by decide)
      · exact Nat.lt_of_le_of_lt (of_decide_eq_true (Bool.and_eq_true_iff.mp hlower).2) (by decide)
    · exact Nat.lt_of_le_of_lt (of_decide_eq_true (Bool.and_eq_true_iff.mp hdigit).2) (by decide)
  rw [← Char.ofNat_toNat c] at hc htext
  exact ⟨_, rest, htext, hall c.toNat hascii hc⟩

/-- A plain word shows. -/
theorem Text.shows_of_isPlainWord {chars : List Char} (h : Shell.isPlainWord chars = true) :
    Text.Shows (String.ofList chars) := by
  cases chars with
  | nil => simp [Shell.isPlainWord] at h
  | cons c rest =>
      simp only [Shell.isPlainWord, List.isEmpty_cons, Bool.not_false, Bool.true_and,
        List.all_cons, Bool.and_eq_true, Bool.not_eq_true', Bool.or_eq_false_iff] at h
      refine ⟨c, rest, String.toList_ofList, h.1.1, ?_⟩
      rintro rfl
      exact absurd h.1.2 (by decide)

/-- A text that begins with a double quote shows, with its quotes or without them. -/
theorem Text.shows_bareText {text : String} (h : text.toList.head? = some '\x22') :
    Text.Shows (Shell.bareText text) := by
  have htext : Text.Shows text := by
    rcases List.head?_eq_some_iff.mp h with ⟨rest, hrest⟩
    exact ⟨_, rest, hrest, by decide, by decide⟩
  unfold Shell.bareText
  split
  next inner _ =>
    split
    next hplain => exact shows_of_isPlainWord hplain
    next => exact htext
  next => exact htext

/-- Trimming takes away what stands around a text that has nothing to be trimmed. -/
theorem Text.trim_between {drop : Char → Bool} {before after : Char} {body : List Char}
    (hbefore : drop before = true) (hafter : drop after = true)
    (hbody : ∀ c ∈ body, drop c = false) :
    trim drop (String.ofList (before :: (body ++ [after]))) = String.ofList body := by
  have hkeep : ∀ chars more : List Char, (∀ c ∈ chars, drop c = false) → chars ≠ [] →
      (chars ++ more).dropWhile drop = chars ++ more := by
    intro chars more hchars hne
    cases chars with
    | nil => exact absurd rfl hne
    | cons c cs => exact List.dropWhile_cons_of_neg (by simp [hchars c])
  rw [trim, trimEnd, trimStart, trimEndChars, String.toList_ofList, String.toList_ofList,
    List.dropWhile_cons_of_pos hbefore]
  by_cases hempty : body = []
  · simp [hempty, hafter]
  · have hreverse : body.reverse.dropWhile drop = body.reverse := by
      simpa using hkeep body.reverse [] (by simpa using hbody) (by simpa using hempty)
    rw [hkeep body _ hbody hempty, List.reverse_append, List.reverse_singleton,
      List.singleton_append, List.dropWhile_cons_of_pos hafter, hreverse, List.reverse_reverse]

namespace Literal

/-- The text of an empty pattern. -/
def emptyPattern : Literal × String := (.pattern, "\x27\x27")

/-- A pattern loses its quotes and nothing else. -/
theorem shellText_pattern {text : String} {body : List Char}
    (htext : text.toList = '\x27' :: (body ++ ['\x27'])) (hbody : '\x27' ∉ body) :
    Literal.pattern.shellText text = String.ofList body := by
  have hkeep : ∀ c ∈ body, (c == '\x27') = false := by
    intro c hc
    rw [beq_eq_false_iff_ne]
    rintro rfl
    exact hbody hc
  rw [shellText, ← String.ofList_toList (s := text), htext]
  exact Text.trim_between rfl rfl hkeep

/-- The text of a string begins with a double quote. -/
theorem chars_of_string {text : String} (h : Token.Kind.string.Spells text) :
    text.toList.head? = some '\x22' := by
  rcases h with ⟨bytes, hspelling, rfl⟩
  rcases hspelling.of_string rfl with ⟨body, rfl, _⟩
  have hquote : Token.doubleQuote < 0x80 := by decide
  rw [Utf8.decode, String.toList_ofList, Utf8.decode_ascii hquote]
  rfl

/-- The text of a number begins with a digit. -/
theorem chars_of_number {text : String} (h : Token.Kind.number.Spells text) :
    ∃ c rest, text.toList = c :: rest ∧ c.isDigit = true := by
  rcases h with ⟨bytes, hspelling, rfl⟩
  rcases Token.chars_of_number (t := ⟨.number, default, bytes⟩) hspelling rfl with
    ⟨c, rest, htext, hc, _⟩
  exact ⟨c, rest, htext, hc⟩

/-- A byte of a pattern is no white space, begins no comment and is no quote. -/
theorem char_of_isPatternByte {b : UInt8} (h : Token.isPatternByte b = true) :
    Text.isBlank (Char.ofNat b.toNat) = false ∧ Char.ofNat b.toNat ∉ ['#', '\x27', '\x22'] := by
  have hall : ∀ n < 128, Token.isPatternByte (UInt8.ofNat n) = true →
      Text.isBlank (Char.ofNat n) = false ∧ Char.ofNat n ∉ ['#', '\x27', '\x22'] := by
    decide +kernel
  exact Utf8.of_ascii (fun b c => Token.isPatternByte b = true →
    Text.isBlank c = false ∧ c ∉ ['#', '\x27', '\x22']) hall
    (Token.lt_ascii_of_isPatternByte h) h

/-- The characters of a pattern are no white space, no quotes and no number signs. -/
theorem chars_of_pattern {text : String} (h : Token.Kind.pattern.Spells text) :
    ∃ body, text.toList = '\x27' :: (body ++ ['\x27']) ∧
      ∀ c ∈ body, Text.isBlank c = false ∧ c ∉ ['#', '\x27', '\x22'] := by
  rcases h with ⟨bytes, hspelling, rfl⟩
  rcases hspelling.of_pattern rfl with ⟨body, rfl, hbody⟩
  have hascii : ∀ b ∈ Token.singleQuote :: (body ++ [Token.singleQuote]), b < 0x80 := by
    have hquote : Token.singleQuote < 0x80 := by decide
    rw [List.forall_mem_cons, List.forall_mem_append, List.forall_mem_singleton]
    exact ⟨hquote, fun b hb => Token.lt_ascii_of_isPatternByte (hbody b hb), hquote⟩
  refine ⟨body.map fun b => Char.ofNat b.toNat, ?_, ?_⟩
  · rw [Utf8.decode, String.toList_ofList, Utf8.decodeChars_of_ascii hascii, List.map_cons,
      List.map_append]
    rfl
  · rw [List.forall_mem_map]
    exact fun b hb => char_of_isPatternByte (hbody b hb)

/-- A literal shows unless it is an empty pattern. -/
theorem shows_bareText {kind : Literal} {text : String} (h : kind.symbol.Spells text)
    (hempty : (kind, text) ≠ emptyPattern) :
    Text.Shows (Shell.bareText (kind.shellText text)) := by
  cases kind with
  | string => exact Text.shows_bareText (chars_of_string h)
  | number =>
      rcases chars_of_number h with ⟨c, rest, htext, hc⟩
      have hquote : text.toList.head? ≠ some '\x22' := by
        rw [htext]
        intro heq
        rw [Option.some.inj heq] at hc
        exact absurd hc (by decide)
      rw [shellText, Expr.bareText_eq_self hquote]
      exact Text.shows_of_isAlphanum htext (Bool.or_eq_true_iff.mpr (.inr hc))
  | atom =>
      apply Text.shows_bareText
      rw [shellText, String.append_assoc, String.toList_append]
      rfl
  | pattern =>
      rcases chars_of_pattern h with ⟨body, htext, hbody⟩
      rw [shellText_pattern htext fun h => absurd (hbody _ h).2 (by decide)]
      cases body with
      | nil =>
          have htext : text = "\x27\x27" := String.toList_inj.mp htext
          exact absurd (by rw [htext, emptyPattern]) hempty
      | cons c body =>
          rcases hbody c List.mem_cons_self with ⟨hblank, hmark⟩
          simp only [List.mem_cons, List.not_mem_nil, or_false, not_or] at hmark
          rw [Expr.bareText_eq_self (by simpa using hmark.2.2)]
          exact ⟨c, body, String.toList_ofList, hblank, hmark.1⟩

end Literal

/-- A name shows. -/
theorem Text.shows_of_identifier {text : String} (h : Token.Kind.identifier.Spells text) :
    Text.Shows text := by
  rcases h with ⟨bytes, hspelling, rfl⟩
  rcases Token.nameIn_of_spelling (t := ⟨.identifier, default, bytes⟩) hspelling rfl with
    ⟨c, hhead, hc⟩
  rcases List.head?_eq_some_iff.mp hhead with ⟨rest, htext⟩
  exact Text.shows_of_isAlphanum htext (Bool.or_eq_true_iff.mpr (.inl hc))

/-! ### Values -/

namespace Expr

/-- Whether an expression is an empty pattern. -/
def isEmptyPattern (e : Expr π) : Bool :=
  e.literal? == some Literal.emptyPattern

/-- The arguments of an expression that calls a command. -/
def commandArguments : Expr π → List (Expr π)
  | .call _ callee _ arguments _ => if (Expansion.ofName? callee).isSome then [] else arguments
  | _ => []

/-- A call shows if the name of its command does. -/
theorem shows_ofCall {callee : String} (h : Text.Shows callee) (arguments : List Shell.Expr) :
    Text.Shows ((Shell.Expr.ofCall callee arguments).layout false) := by
  have hbuiltins : ∀ b ∈ CommandBuiltin.all, b.command = "echo" := by decide
  have hecho : Text.Shows "echo" := ⟨'e', ['c', 'h', 'o'], rfl, by decide, by decide⟩
  unfold Shell.Expr.ofCall
  split
  next b hb =>
    rw [Shell.Expr.layout, hbuiltins b (List.mem_of_find?_eq_some hb)]
    exact (hecho.append _).append _
  next =>
    rw [Shell.Expr.layout]
    exact (h.append _).append _

theorem shows_of_dollar (rest : String) : Text.Shows ("$" ++ rest) :=
  (show Text.Shows "$" from ⟨'$', [], rfl, by decide, by decide⟩).append rest

theorem shows_substitution (inner : Shell.Expr) :
    Text.Shows ((Shell.Expr.substitution inner).layout false) := by
  rw [Shell.Expr.layout]
  exact ((shows_of_dollar "(").append _).append _

theorem shows_arithmetic (inner : Shell.Expr) :
    Text.Shows ((Shell.Expr.arithmetic inner).layout false) := by
  rw [Shell.Expr.layout]
  exact ((shows_of_dollar "(( ").append _).append _

/-- The expansion of a variable shows. -/
theorem shows_takes {name : String} {x : Expansion} {words : List Shell.Expr}
    {expansion : Shell.Expr} (h : x.Takes name words expansion) :
    Text.Shows (expansion.layout false) := by
  have hopen : Text.Shows "$\x7b" := shows_of_dollar "\x7b"
  cases h with
  | length =>
      rw [Shell.Expr.layout]
      exact ((shows_of_dollar "\x7b#").append _).append _
  | replace everywhere pattern replacement =>
      rw [Shell.Expr.layout]
      exact (((((hopen.append _).append _).append _).append _).append _).append _
  | remove side pattern =>
      rw [Shell.Expr.layout]
      exact (((hopen.append _).append _).append _).append _

/-- A value shows unless it is an empty pattern. -/
theorem Expressed.shows {e : Expr π} {shell : Shell.Expr} (h : Expressed .value e shell)
    (hspelled : e.Spelled) (hempty : e.isEmptyPattern = false) :
    Text.Shows (shell.layout false) := by
  cases h with
  | literal kind text p =>
      apply Literal.shows_bareText hspelled
      intro heq
      simp [isEmptyPattern, literal?, heq] at hempty
  | name text p => exact shows_of_dollar _
  | @command _ form =>
      cases form with
      | plain => exact shows_ofCall (Text.shows_of_identifier hspelled) _
      | nested depth => exact shows_substitution _
  | @expansion _ form _ _ _ _ _ _ _ _ _ _ _ htakes =>
      cases form with
      | plain => exact shows_takes htakes
      | nested depth => exact shows_substitution _
  | binary | group | negate => exact shows_arithmetic _
  | number text q p =>
      have hminus : Text.Shows "-" := ⟨'-', [], rfl, by decide, by decide⟩
      rw [Shell.Expr.layout, bareText_eq_self (by simp)]
      exact hminus.append text

/-- An empty pattern has no text. -/
theorem Expressed.layout_eq_empty {e : Expr π} {shell : Shell.Expr}
    (h : Expressed .value e shell) (hempty : e.isEmptyPattern = true) :
    shell.layout false = "" := by
  have hbare : Shell.bareText (Literal.pattern.shellText "\x27\x27") = "" := by decide
  cases h with
  | literal kind text p =>
      rcases Prod.mk.inj (Option.some.inj (beq_iff_eq.mp hempty)) with ⟨rfl, rfl⟩
      exact hbare
  | name | command | expansion | binary | group | number | negate =>
      simp [isEmptyPattern, literal?] at hempty

/-! ### Arguments -/

section Arguments

variable {inner : Shell.Expr}

/-- An expression that holds one other and is no command has the arguments of the one inside. -/
theorem allArguments_of_inner {outer : Shell.Expr} (harguments : outer.arguments = [])
    (hchildren : outer.children = [inner]) : outer.allArguments = inner.allArguments := by
  rw [outer.allArguments_eq, harguments, hchildren]
  exact List.append_nil _

theorem allArguments_wrapping (wrapping : Wrapping) :
    (wrapping.apply inner).allArguments = inner.allArguments := by
  cases wrapping with
  | test | arithmetic => exact allArguments_of_inner rfl rfl
  | bare => rfl

theorem allArguments_form (form : CallForm) :
    (form.apply inner).allArguments = inner.allArguments := by
  cases form with
  | plain => rfl
  | nested depth => exact allArguments_of_inner rfl rfl

theorem allArguments_unbracketed : inner.unbracketed.allArguments = inner.allArguments := by
  cases inner with
  | test inner => exact (allArguments_of_inner rfl rfl).symm
  | text | value | command | binary | group | arithmetic | substitution | length | replace
  | remove => rfl

theorem allArguments_binary (operator : String) (left right : Shell.Expr) :
    (Shell.Expr.binary operator left right).allArguments =
      left.allArguments ++ right.allArguments := by
  rw [Shell.Expr.allArguments_eq, Shell.Expr.children, List.flatMap_cons, List.flatMap_singleton]
  rfl

/-- The arguments in an expansion are those in its words. -/
theorem allArguments_takes {name : String} {x : Expansion} {words : List Shell.Expr}
    {expansion : Shell.Expr} (h : x.Takes name words expansion) :
    expansion.allArguments = words.flatMap Shell.Expr.allArguments := by
  have harguments : expansion.arguments = [] := by cases h <;> rfl
  rw [expansion.allArguments_eq, harguments, h.children, List.nil_append]

theorem forall₂_flatMap {α β : Type} {R : α → β → Prop} {es : List (Expr π)}
    {shell : Expr π → Shell.Expr} {f : Expr π → List α} {g : Shell.Expr → List β}
    (h : ∀ e ∈ es, List.Forall₂ R (f e) (g (shell e))) :
    List.Forall₂ R (es.flatMap f) ((es.map shell).flatMap g) := by
  induction es with
  | nil => exact .nil
  | cons e es ih =>
      rcases List.forall_mem_cons.mp h with ⟨he, hes⟩
      exact List.rel_append he (ih hes)

end Arguments

/-- The arguments of the commands in an expression. -/
def argumentsIn (e : Expr π) : List (Expr π) :=
  e.parts.flatMap commandArguments

/-- The arguments of the commands in a shell expression are what those in the expression
become as values, one by one. -/
theorem Expressed.forall₂_arguments {context : Context} {e : Expr π} {shell : Shell.Expr}
    (h : Expressed context e shell) :
    List.Forall₂ (Expressed .value) e.argumentsIn shell.allArguments := by
  induction h with
  | literal | name | number => exact .nil
  | @command context form callee cp p arguments shell hcallee harguments ih =>
      rcases Shell.Expr.ofCall_eq callee (arguments.map shell) with ⟨name, redirects, hcall⟩
      have hown : List.Forall₂ (Expressed .value) arguments (arguments.map shell) :=
        List.forall₂_map_right_iff.mpr (List.forall₂_same.mpr harguments)
      rw [allArguments_form, hcall, Shell.Expr.allArguments_eq, argumentsIn, parts,
        List.flatMap_cons, allParts_eq, List.flatMap_assoc, commandArguments, hcallee]
      exact List.rel_append hown (forall₂_flatMap ih)
  | @expansion context form callee text cp tp p words shell x expansion hcallee hforms htakes
      hwords ih =>
      rw [allArguments_form, allArguments_takes htakes, argumentsIn, parts, List.flatMap_cons,
        allParts_eq, List.flatMap_assoc, commandArguments, hcallee]
      exact forall₂_flatMap ih
  | @binary context op left right p l r hleft hright ihleft ihright =>
      rw [allArguments_wrapping, allArguments_binary, argumentsIn, parts, List.flatMap_cons,
        List.flatMap_append]
      exact List.rel_append ihleft ihright
  | group hinner ih =>
      rw [allArguments_wrapping, allArguments_of_inner rfl rfl]
      exact ih
  | negate hnumber hinner ih =>
      rw [allArguments_wrapping, allArguments_binary]
      exact ih

end Expr

/-- The arguments of the commands in a root are expressed by those in the shell, in order. -/
theorem Expr.ExpressedRoot.forall₂_arguments {r : Shell.Scope × Expr π}
    {root : Shell.Scope × Shell.Expr} (h : ExpressedRoot r root) :
    List.Forall₂ (Expressed .value) r.2.argumentsIn root.2.allArguments := by
  cases h with
  | value h => exact h.forall₂_arguments
  | test h =>
      rw [allArguments_unbracketed]
      exact h.forall₂_arguments

/-! ### Statements -/

/-- How the shell expresses a statement, leaving aside the statements in it. -/
inductive Stmt.Expressed : Stmt π → Shell.Stmt → Prop where
  | comment (text : String) (p : π) : Expressed (.comment text p) (.comment text)
  | blank (p : π) : Expressed (.blank p) .blank
  | assign {target : String} {tp p : π} {value : Expr π} {shell : Shell.Expr}
      (h : Expr.Expressed .value value shell) :
      Expressed (.assign target tp value p) (.assign (Text.upper target) shell)
  | run {value : Expr π} {p : π} {shell : Shell.Expr} (h : Expr.Expressed .value value shell) :
      Expressed (.run value p) (.run shell)
  | cond {test : Expr π} {body : List (Stmt π)} {bp p : π} {alternative : Else π}
      {shellTest : Shell.Expr} {shellBody : List Shell.Stmt} {shellAlternative : Shell.Else} :
      Expressed (.cond test body bp alternative p) (.cond shellTest shellBody shellAlternative)

mutual

/-- If nothing is reported about a statement, the statements in it are expressed one by one. -/
theorem Stmt.forall₂_parts : ∀ s : Stmt π, s.toShell.problems = [] →
    List.Forall₂ Stmt.Expressed s.parts s.toShell.value.parts
  | .comment text p, _ => by
      rw [Stmt.toShell]
      exact .cons (.comment text p) .nil
  | .blank p, _ => by
      rw [Stmt.toShell]
      exact .cons (.blank p) .nil
  | .assign target tp value p, h => by
      rw [Stmt.toShell] at h ⊢
      simp only [Checked.problems_bind, Checked.problems_pure, List.append_nil] at h
      exact .cons (.assign (Expr.expressed_of_problems h)) .nil
  | .run value p, h => by
      rw [Stmt.toShell] at h ⊢
      cases hcallee : value.expansionName? with
      | some callee => simp [hcallee, Checked.report] at h
      | none =>
          simp only [hcallee, Checked.problems_bind, Checked.problems_pure, List.append_nil] at h
          exact .cons (.run (Expr.expressed_of_problems h)) .nil
  | .cond test body bp alternative p, h => by
      rw [Stmt.toShell] at h ⊢
      simp only [Checked.problems_bind, Checked.problems_pure, List.append_nil,
        List.append_eq_nil_iff] at h
      rcases h with ⟨_, hbody, halternative⟩
      exact .cons .cond (List.rel_append (Stmt.forall₂_allParts body hbody)
        (Else.forall₂_parts alternative halternative))

/-- The statements in several statements are expressed by those in the shell, in order. -/
theorem Stmt.forall₂_allParts : ∀ ss : List (Stmt π), (Stmt.allToShell ss).problems = [] →
    List.Forall₂ Stmt.Expressed (Stmt.allParts ss)
      (Shell.Stmt.allParts (Stmt.allToShell ss).value)
  | [], _ => by
      rw [Stmt.allToShell]
      exact .nil
  | s :: ss, h => by
      rw [Stmt.allToShell] at h ⊢
      simp only [Checked.problems_bind, Checked.problems_pure, List.append_nil,
        List.append_eq_nil_iff] at h
      exact List.rel_append (Stmt.forall₂_parts s h.1) (Stmt.forall₂_allParts ss h.2)

/-- The statements after the body of a conditional are expressed by those in the
shell, in order. -/
theorem Else.forall₂_parts : ∀ a : Else π, a.toShell.problems = [] →
    List.Forall₂ Stmt.Expressed a.parts a.toShell.value.parts
  | .absent, _ => by
      rw [Else.toShell]
      exact .nil
  | .block body bp, h => by
      rw [Else.toShell] at h ⊢
      simp only [Checked.problems_bind, Checked.problems_pure, List.append_nil] at h
      exact Stmt.forall₂_allParts body h
  | .elseIf test body bp rest, h => by
      rw [Else.toShell] at h ⊢
      simp only [Checked.problems_bind, Checked.problems_pure, List.append_nil,
        List.append_eq_nil_iff] at h
      rcases h with ⟨_, hbody, hrest⟩
      exact List.rel_append (Stmt.forall₂_allParts body hbody) (Else.forall₂_parts rest hrest)

end

/-- The statements of a script that the shell expresses are expressed one by one. -/
theorem Script.forall₂_allStatements {s : Script π} {shell : Shell.Script}
    (h : s.toShell = .ok shell) :
    List.Forall₂ Stmt.Expressed s.allStatements shell.allStatements := by
  rcases Script.of_toShell h with ⟨hproblems, rfl⟩
  exact Stmt.forall₂_allParts s.statements hproblems

section Names

variable {P : String → Prop}

mutual

/-- The names in a part of a statement are in the statement. -/
theorem Stmt.NamesIn.of_mem_parts : ∀ {s part : Stmt π}, s.NamesIn P → part ∈ s.parts →
    part.NamesIn P
  | .comment .., _, hs, h | .blank _, _, hs, h | .assign .., _, hs, h | .run .., _, hs, h => by
      rw [List.mem_singleton.mp h]
      exact hs
  | .cond test body _ alternative _, part, hs, h => by
      rcases List.mem_cons.mp h with rfl | h
      · exact hs
      · rcases List.mem_append.mp h with h | h
        · exact Stmt.NamesInAll.of_mem_allParts hs.2.1 h
        · exact Else.NamesIn.of_mem_parts hs.2.2 h

theorem Stmt.NamesInAll.of_mem_allParts : ∀ {ss : List (Stmt π)} {part : Stmt π},
    Stmt.NamesInAll P ss → part ∈ Stmt.allParts ss → part.NamesIn P
  | [], _, _, h => absurd h List.not_mem_nil
  | s :: ss, part, hss, h => by
      rcases List.mem_append.mp h with h | h
      · exact Stmt.NamesIn.of_mem_parts hss.1 h
      · exact Stmt.NamesInAll.of_mem_allParts hss.2 h

theorem Else.NamesIn.of_mem_parts : ∀ {a : Else π} {part : Stmt π}, a.NamesIn P →
    part ∈ a.parts → part.NamesIn P
  | .absent, _, _, h => absurd h List.not_mem_nil
  | .block body _, part, ha, h => Stmt.NamesInAll.of_mem_allParts ha h
  | .elseIf test body _ rest, part, ha, h => by
      rcases List.mem_append.mp h with h | h
      · exact Stmt.NamesInAll.of_mem_allParts ha.2.1 h
      · exact Else.NamesIn.of_mem_parts ha.2.2 h

end

end Names

/-! ### Flattening -/

theorem Flatten.spells_echo : Token.Kind.identifier.Spells "echo" := by
  have hbytes : Utf8.encode "echo" = [0x65, 0x63, 0x68, 0x6f] := by decide
  exact Token.Kind.spells_identifier hbytes (by decide) (by decide) (by decide)

/-- Flattening neither makes nor removes expressions that are not spelt as they should be. -/
theorem Expr.not_spelled_lasting : Lasting fun e : Expr π => ¬ e.Spelled where
  name _ _ h := h trivial
  binary _ _ _ _ h := h trivial
  negate _ _ h := h trivial
  group _ _ h := h trivial
  option _ h := h ⟨Utf8.encode "\"-n\"", .string (by decide), by decide⟩
  echo _ _ _ _ h := h Flatten.spells_echo
  command _ _ := Iff.rfl
  expansion _ := Iff.rfl

/-- One of the arguments of a command is an empty pattern. -/
def Expr.HasEmptyArgument (e : Expr π) : Prop :=
  ∃ a ∈ e.commandArguments, a.isEmptyPattern = true

/-- Flattening neither makes nor removes arguments that are empty patterns. -/
theorem Expr.hasEmptyArgument_lasting : Lasting fun e : Expr π => e.HasEmptyArgument where
  name _ _ := by simp [HasEmptyArgument, commandArguments]
  binary _ _ _ _ := by simp [HasEmptyArgument, commandArguments]
  negate _ _ := by simp [HasEmptyArgument, commandArguments]
  group _ _ := by simp [HasEmptyArgument, commandArguments]
  option _ := by simp [HasEmptyArgument, commandArguments]
  echo depth holder place hholder := by
    rintro ⟨a, ha, hempty⟩
    have hcallee : Expansion.ofName? "echo" = none := by decide
    have harguments : a = .literal .string "\"-n\"" place ∨ a = holder := by
      simpa [echo, commandArguments, hcallee] using ha
    rcases harguments with rfl | rfl
    · simp [isEmptyPattern, literal?, Literal.emptyPattern] at hempty
    · cases a with
      | name => simp [isEmptyPattern, literal?] at hempty
      | literal | call | binary | negate | group => contradiction
  command := by
    intro form form' callee cp p arguments arguments' hcallee harguments
    have hmem : ∀ es : List (Expr π), (∃ a ∈ es, a.isEmptyPattern = true) ↔
        some Literal.emptyPattern ∈ es.map literal? := by
      intro es
      simp only [isEmptyPattern, beq_iff_eq, List.mem_map]
    simp only [HasEmptyArgument, commandArguments, hcallee, Option.isSome_none,
      Bool.false_eq_true, if_false, hmem, harguments]
  expansion := by
    intro form callee cp p arguments arguments' x hcallee
    simp [HasEmptyArgument, commandArguments, hcallee]

/-- An argument of a command of a script is an empty pattern. -/
def Script.HasEmptyArgument (s : Script π) : Prop :=
  Marked Expr.HasEmptyArgument s.expressions

/-- A statement of a script is an empty pattern. -/
def Script.HasEmptyStatement (s : Script π) : Prop :=
  ∃ part ∈ s.allStatements, part.literal? = some Literal.emptyPattern

/-- A flattened script has an empty argument exactly if the script has one. -/
theorem Script.hasEmptyArgument_flatten (s : Script π) :
    s.flatten.HasEmptyArgument ↔ s.HasEmptyArgument :=
  Script.marked_flatten Expr.hasEmptyArgument_lasting s

/-- A flattened script has an empty statement exactly if the script has one. -/
theorem Script.hasEmptyStatement_flatten (s : Script π) :
    s.flatten.HasEmptyStatement ↔ s.HasEmptyStatement := by
  rw [HasEmptyStatement, HasEmptyStatement, ← List.mem_filterMap, ← List.mem_filterMap,
    Script.readings_flatten Stmt.literal?_lasting]

/-- The expressions of a flattened script are spelt as they should be if those of the
script are. -/
theorem Script.spelled_flatten {s : Script π} (h : ∀ e ∈ s.expressions, e.Spelled) :
    ∀ e ∈ s.flatten.expressions, e.Spelled := by
  have hmarked : ¬ Marked (fun e => ¬ e.Spelled) s.flatten.expressions := by
    rw [Script.marked_flatten Expr.not_spelled_lasting]
    rintro ⟨e, he, hspelled⟩
    exact hspelled (h e he)
  intro e he
  exact Classical.byContradiction fun hspelled => hmarked ⟨e, he, hspelled⟩

/-! ### Shell scripts -/

/-- A test that texts pass if they show, and that the empty text fails, tells whether a value is
an empty pattern. -/
theorem Expr.Expressed.test_iff {e : Expr π} {shell : Shell.Expr} (h : Expressed .value e shell)
    (hspelled : e.Spelled) {test : String → Bool} (hshows : ∀ {text}, Text.Shows text → test text)
    (hnothing : test "" = false) : test (shell.layout false) = true ↔ e.isEmptyPattern = false := by
  cases hempty : e.isEmptyPattern with
  | true => simp [h.layout_eq_empty hempty, hnothing]
  | false => simp [hshows (h.shows hspelled hempty)]

/-- What holds of things one by one holds of all of them. -/
theorem forall_iff_of_forall₂ {α β : Type} {R : α → β → Prop} {P : α → Prop} {Q : β → Prop}
    {as : List α} {bs : List β} (h : List.Forall₂ R as bs)
    (hiff : ∀ a ∈ as, ∀ b, R a b → (Q b ↔ P a)) : (∀ b ∈ bs, Q b) ↔ ∀ a ∈ as, P a := by
  induction h with
  | nil => simp
  | cons hfirst _ ih =>
      rcases List.forall_mem_cons.mp hiff with ⟨hhead, htail⟩
      rw [List.forall_mem_cons, List.forall_mem_cons, hhead _ hfirst, ih htail]

theorem Expr.mem_parts_of_mem_argumentsIn (e : Expr π) : ∀ a ∈ e.argumentsIn, a ∈ e.parts := by
  induction e using Expr.induction with
  | literal kind text p => exact List.forall_mem_nil _
  | name text p => exact List.forall_mem_nil _
  | call form callee cp arguments p ih =>
      rw [argumentsIn, parts, List.flatMap_cons, List.forall_mem_append]
      constructor
      · intro a ha
        have harguments : a ∈ arguments := by
          rw [commandArguments] at ha
          split at ha
          · exact absurd ha List.not_mem_nil
          · exact ha
        exact List.mem_cons_of_mem _ (mem_allParts.mpr ⟨a, harguments, a.mem_parts_self⟩)
      · intro a ha
        rw [allParts_eq, List.flatMap_assoc] at ha
        rcases List.mem_flatMap.mp ha with ⟨e, he, ha⟩
        exact List.mem_cons_of_mem _ (mem_allParts.mpr ⟨e, he, ih e he a ha⟩)
  | binary op left right p ihleft ihright =>
      rw [argumentsIn, parts, List.flatMap_cons, List.flatMap_append, List.forall_mem_append,
        List.forall_mem_append]
      refine ⟨List.forall_mem_nil _, ?_, ?_⟩
      · exact fun a ha => List.mem_cons_of_mem _ (List.mem_append_left _ (ihleft a ha))
      · exact fun a ha => List.mem_cons_of_mem _ (List.mem_append_right _ (ihright a ha))
  | negate inner p ih | group inner p ih =>
      exact fun a ha => List.mem_cons_of_mem _ (ih a ha)

namespace Script

variable {s : Script π} {shell : Shell.Script}

/-- The arguments of the commands of a script are expressed by those of the shell script, in
order. -/
theorem forall₂_arguments (h : s.toShell = .ok shell) :
    List.Forall₂ (Expr.Expressed .value) (s.expressions.flatMap Expr.commandArguments)
      shell.arguments := by
  rw [Script.expressions, Stmt.allExpressions_eq_roots, List.flatMap_assoc]
  exact List.rel_flatMap (forall₂_roots h) fun _ _ hroot => hroot.forall₂_arguments

theorem arguments_subset (s : Script π) :
    s.expressions.flatMap Expr.commandArguments ⊆ s.expressions := by
  rw [Script.expressions, Stmt.allExpressions_eq_roots, List.flatMap_assoc]
  intro a ha
  rcases List.mem_flatMap.mp ha with ⟨root, hroot, ha⟩
  exact List.mem_flatMap.mpr ⟨root, hroot, root.2.mem_parts_of_mem_argumentsIn a ha⟩

/-- The arguments of a shell script show exactly if none of those of the script is an empty
pattern. -/
theorem forall_arguments_iff (h : s.toShell = .ok shell)
    (hspelled : ∀ e ∈ s.expressions, e.Spelled) :
    (∀ a ∈ shell.arguments, Text.isVisible (a.layout false) = true) ↔ ¬ s.HasEmptyArgument := by
  have hiff : (∀ a ∈ shell.arguments, Text.isVisible (a.layout false) = true) ↔
      ∀ a ∈ s.expressions.flatMap Expr.commandArguments, a.isEmptyPattern = false := by
    apply forall_iff_of_forall₂ (forall₂_arguments h)
    intro a ha shell hshell
    exact hshell.test_iff (hspelled a (s.arguments_subset ha)) Text.Shows.isVisible rfl
  rw [hiff]
  simp only [HasEmptyArgument, Marked, Expr.HasEmptyArgument, List.mem_flatMap]
  grind

/-- The values that a shell script runs are commands exactly if none of the statements of the
script is an empty pattern. -/
theorem forall_runs_iff (h : s.toShell = .ok shell)
    (hspelled : ∀ e ∈ s.expressions, e.Spelled) :
    (∀ value, .run value ∈ shell.allStatements → Text.isCommand (value.layout false) = true) ↔
      ¬ s.HasEmptyStatement := by
  have hiff : (∀ part ∈ shell.allStatements, ∀ value, part = .run value →
      Text.isCommand (value.layout false) = true) ↔
      ∀ part ∈ s.allStatements, part.literal? ≠ some Literal.emptyPattern := by
    apply forall_iff_of_forall₂ (forall₂_allStatements h)
    intro part hpart shell hshell
    cases hshell with
    | comment | blank | assign | cond => simp [Stmt.literal?]
    | @run value p shell hvalue =>
        have hmem : value ∈ s.expressions :=
          Stmt.allExpressions_subset hpart value.mem_parts_self
        have hiff := hvalue.test_iff (hspelled value hmem) Text.Shows.isCommand rfl
        simp only [Shell.Stmt.run.injEq, forall_eq', Stmt.literal?, hiff, Expr.isEmptyPattern,
          beq_eq_false_iff_ne]
  simp only [HasEmptyStatement, not_exists, not_and]
  exact ⟨fun hruns => hiff.mp fun _ hpart value hvalue => hruns value (hvalue ▸ hpart),
    fun hparts value hvalue => hiff.mpr hparts _ hvalue value rfl⟩

/-- If the values that a shell script runs show, all its statements do. -/
theorem forall_shows (h : s.toShell = .ok shell)
    (hnames : s.NamesIn fun text => Text.Shows (Text.upper text))
    (hruns : ∀ value, .run value ∈ shell.allStatements →
      Text.isCommand (value.layout false) = true) :
    ∀ part ∈ shell.allStatements, part.Shows := by
  intro part hpart
  rcases exists_mem_of_forall₂ (forall₂_allStatements h) hpart with ⟨origin, horigin, hexpressed⟩
  cases hexpressed with
  | comment | blank => exact fun hcommand => absurd hcommand (by simp [Shell.Stmt.isCommand])
  | assign => exact Shell.Stmt.shows_assign (hnames.of_mem_allParts horigin).1 _
  | run => exact Shell.Stmt.shows_run (hruns _ hpart)
  | cond => exact Shell.Stmt.shows_cond _ _ _

end Script

/-- A variable that may be expanded has a name that shows. -/
theorem Source.Expands.shows {source : Source} {name : String} (h : source.Expands name) :
    Text.Shows name := by
  cases h with
  | temporary number =>
      exact ⟨'_', _, Flatten.toList_temporary number, by decide, by decide⟩
  | @name name hname hupper =>
      rw [Text.isUpperName] at hupper
      split at hupper
      next => contradiction
      next c rest htext =>
        have hletter : c.isAlpha = true :=
          Bool.or_eq_true_iff.mpr (.inl (Bool.and_eq_true_iff.mp hupper).1)
        exact Text.shows_of_isAlphanum htext (Bool.or_eq_true_iff.mpr (.inl hletter))

/-- In a script that is compiled, the arguments of commands show exactly if none of them is an
empty pattern, the values that are run are commands exactly if no statement is an empty
pattern, and in that case every body of a conditional has a command. -/
theorem compile_shows_iff {source : Source} {width : Nat} {text : String}
    (h : compile source width = .ok text) :
    ∃ script shell, Script.parse source = .ok script ∧ script.flatten.toShell = .ok shell ∧
      text = shell.layout width ∧
      ((∀ argument ∈ shell.arguments, Text.isVisible (argument.layout false) = true) ↔
        ¬ script.HasEmptyArgument) ∧
      ((∀ value, .run value ∈ shell.allStatements →
          Text.isCommand (value.layout false) = true) ↔ ¬ script.HasEmptyStatement) ∧
      (¬ script.HasEmptyStatement → ∀ body ∈ shell.bodies, body <:+: shell.lines ∧
        ∃ line ∈ body, Text.isCommand line.text = true) := by
  rcases exists_of_compile h with ⟨script, shell, hparse, hshell, htext⟩
  have hspelled := Script.spelled_flatten (Script.spelled_of_parse hparse)
  have harguments := Script.forall_arguments_iff hshell hspelled
  have hruns := Script.forall_runs_iff hshell hspelled
  rw [Script.hasEmptyArgument_flatten] at harguments
  rw [Script.hasEmptyStatement_flatten] at hruns
  refine ⟨script, shell, hparse, hshell, htext, harguments, hruns, ?_⟩
  intro hstatements body hbody
  have hnames : script.flatten.NamesIn fun text => Text.Shows (Text.upper text) :=
    Stmt.NamesInAll.imp (fun _ hname => hname.shows) (Script.namesIn_expands_flatten hparse)
  have hshows := Script.forall_shows hshell hnames (hruns.mpr hstatements)
  exact ⟨Shell.Script.isInfix_of_mem_bodies hbody,
    Shell.Script.exists_command_of_mem_bodies hshows body hbody⟩

/-- Conditionals with and without commands in their bodies, and arguments of all kinds. -/
def visibilitySample : Source :=
  Utf8.encode ("print(\"\", :a, 'b*', f(-1), len(x))\n" ++
    "if a \x7b\n# c\n\x7d else if b \x7b\n\"#\"\n\x7d else \x7b\nlet x = 1\n\x7d\n")

/-- The shell script of the sample. -/
def visibilityText : String :=
  "#!/bin/sh\n\necho \"\" a b* $(f -1) $\x7b#X\x7d >&2\n" ++
    "if [ \"$A\" ]; then\n  # c\n  :\nelif [ \"$B\" ]; then\n  \"#\"\nelse\n  X=1\nfi\n"

/-- Empty patterns: an argument and the only statement of a body. -/
def emptyPatternSample : Source :=
  Utf8.encode "print('')\nif a \x7b\n''\n\x7d\n"

/-- The shell script of the empty patterns, which do not show in it. -/
def emptyPatternText : String :=
  "#!/bin/sh\n\necho  >&2\nif [ \"$A\" ]; then\n  \nfi\n"

/-- A script in which everything shows, and one whose empty patterns do not. -/
theorem compile_shows_iff_sample :
    (compile visibilitySample 2 = .ok visibilityText ∧
      ∃ script shell, Script.parse visibilitySample = .ok script ∧
        script.flatten.toShell = .ok shell ∧ visibilityText = shell.layout 2 ∧
        ((∀ argument ∈ shell.arguments, Text.isVisible (argument.layout false) = true) ↔
          ¬ script.HasEmptyArgument) ∧
        ((∀ value, .run value ∈ shell.allStatements →
            Text.isCommand (value.layout false) = true) ↔ ¬ script.HasEmptyStatement) ∧
        (¬ script.HasEmptyStatement → ∀ body ∈ shell.bodies, body <:+: shell.lines ∧
          ∃ line ∈ body, Text.isCommand line.text = true)) ∧
    (compile emptyPatternSample 2 = .ok emptyPatternText ∧
      ∃ script shell, Script.parse emptyPatternSample = .ok script ∧
        script.flatten.toShell = .ok shell ∧ emptyPatternText = shell.layout 2 ∧
        script.HasEmptyArgument ∧ script.HasEmptyStatement ∧
        ¬ (∀ argument ∈ shell.arguments, Text.isVisible (argument.layout false) = true) ∧
        ¬ ∀ value, .run value ∈ shell.allStatements →
          Text.isCommand (value.layout false) = true) := by
  have hcompile : compile visibilitySample 2 = .ok visibilityText := by
    decide +kernel
  have hempty : compile emptyPatternSample 2 = .ok emptyPatternText := by
    decide +kernel
  refine ⟨⟨hcompile, compile_shows_iff hcompile⟩, hempty, ?_⟩
  rcases compile_shows_iff hempty with ⟨script, shell, hparse, hshell, htext, harguments, hruns, _⟩
  have hscript : script = (Script.read emptyPatternSample).1 :=
    (congrArg Prod.fst (Script.parse_eq_ok_iff.mp hparse)).symm
  have hargument : script.HasEmptyArgument := by
    rw [hscript]
    exact ⟨.call .plain "print" ⟨0, 5⟩ [.literal .pattern "''" ⟨6, 8⟩] ⟨0, 9⟩, by decide +kernel,
      .literal .pattern "''" ⟨6, 8⟩, by decide +kernel, by decide +kernel⟩
  have hstatement : script.HasEmptyStatement := by
    rw [hscript]
    exact ⟨.run (.literal .pattern "''" ⟨17, 19⟩) ⟨17, 19⟩, by decide +kernel, rfl⟩
  exact ⟨script, shell, hparse, hshell, htext, hargument, hstatement,
    fun h => harguments.mp h hargument, fun h => hruns.mp h hstatement⟩

end Shellward
