import Shellward.Proofs.Script.Scoping
import Shellward.Script.Equality

/-!
# Arithmetic in conditions

A test compares words, so arithmetic in a condition is put into an expansion of its own
where it is a direct part of the condition.  Two kinds of arithmetic are not: the condition
itself, and what stands in a comparison that is itself compared.

Main results:

- Theorem `Expr.Expressed.placed`: what an expression becomes in a context is placed well
  if the nodes around it are those of that context.
- Theorem `compile_arithmetic_apart`: in the tests of a script that is compiled, arithmetic
  is in an expansion of its own, but for the two kinds.
-/

namespace Shellward

variable {π : Type}

/-! ### Placing arithmetic -/

namespace Shell

/-- The operators of arithmetic. -/
def arithmeticOperators : List String :=
  ["+", "-", "*", "/", "%"]

/-- The operators that compare the words of a test. -/
def testOperators : List String :=
  ["=", "!=", "-lt", "-le", "-gt", "-ge"]

/-- Whether an expression compares the words of a test. -/
def Expr.isComparison : Expr → Bool
  | .binary operator _ _ => testOperators.contains operator
  | _ => false

/-- Whether an expression is a command. -/
def Expr.isCommand : Expr → Bool
  | .command .. => true
  | _ => false

namespace Occurrence

/-- A node is in an arithmetic expansion. -/
def Expanded (o : Occurrence) : Prop :=
  ∃ inner, Expr.arithmetic inner ∈ o.around

/-- A node is among the arguments of a command. -/
def InCommand (o : Occurrence) : Prop :=
  ∃ e ∈ o.around, e.isCommand = true

/-- A node is in a comparison that is not the whole of a root. -/
def InnerCompared (o : Occurrence) : Prop :=
  ∃ e ∈ o.around.dropLast, e.isComparison = true

/-- An operation of a test is in an expansion or compares; one that computes may also be the
whole test or stand in an inner comparison.  An expansion is a direct part of the test, unless
it is among the arguments of a command. -/
def Placed (o : Occurrence) : Prop :=
  match o.node with
  | .binary operator _ _ =>
      o.Expanded ∨ operator ∈ testOperators ∨
        operator ∈ arithmeticOperators ∧ (o.around = [] ∨ o.InnerCompared)
  | .arithmetic _ => o.InCommand ∨ ∃ outermost, o.around = [outermost]
  | _ => True

end Occurrence

end Shell

/-- Words of expansions are placed well anywhere. -/
theorem Shell.Occurrence.placed_of_isWord {o : Shell.Occurrence} (h : o.node.isWord = true) :
    o.Placed := by
  rw [Placed]
  cases hnode : o.node <;> simp_all [Shell.Expr.isWord]

/-- What computes is placed well in an expansion, as a whole test and in an inner comparison. -/
theorem Shell.Occurrence.placed_of_mem_arithmeticOperators {around : List Shell.Expr}
    {operator : String} {left right : Shell.Expr} (h : operator ∈ Shell.arithmeticOperators)
    (hplace : Expanded ⟨around, .binary operator left right⟩ ∨ around = [] ∨
      InnerCompared ⟨around, .binary operator left right⟩) :
    Placed ⟨around, .binary operator left right⟩ := by
  rcases hplace with hexpanded | hbare
  · exact .inl hexpanded
  · exact .inr (.inr ⟨h, hbare⟩)

/-- A comparison is spelt in a test with an operator that compares words. -/
theorem Operator.testSpelling_mem {op : Operator} (h : op.isArithmetic = false) :
    op.testSpelling ∈ Shell.testOperators := by
  cases op with
  | equal | notEqual | less | lessEqual | greater | greaterEqual =>
      simp [testSpelling, Shell.testOperators]
  | add | subtract | multiply | divide | remainder => simp [isArithmetic] at h

/-- Arithmetic is spelt alike in tests and in expansions. -/
theorem Context.spelling_mem {op : Operator} (h : op.isArithmetic = true) (context : Context) :
    context.spelling op ∈ Shell.arithmeticOperators := by
  have hspelling : op.spelling ∈ Shell.arithmeticOperators ∧ op.testSpelling = op.spelling := by
    cases op with
    | equal | notEqual | less | lessEqual | greater | greaterEqual =>
        simp [Operator.isArithmetic] at h
    | add | subtract | multiply | divide | remainder =>
        simp [Operator.spelling, Operator.testSpelling, Shell.arithmeticOperators]
  cases context with
  | arithmetic => exact hspelling.1
  | value | condition | operand | part =>
      change op.testSpelling ∈ Shell.arithmeticOperators
      rw [hspelling.2]
      exact hspelling.1

/-! ### Contexts -/

namespace Context

/-- Around an expression of a test that stands in a context are the nodes that the context
tells of; `arithmetic` tells whether the expression computes a number. -/
def Admits (around : List Shell.Expr) (arithmetic : Bool) : Context → Prop
  | .value => ∃ e ∈ around, e.isCommand = true
  | .condition => around = []
  | .operand => ∃ outermost, around = [outermost]
  | .part => around ≠ [] ∧
      (arithmetic = true → ∃ e ∈ around.dropLast, Shell.Expr.isComparison e = true)
  | .arithmetic => ∃ inner, Shell.Expr.arithmetic inner ∈ around

/-- Around an operation that is put into its wrapping are the nodes that the context tells
of, and the wrapping if it is an expansion. -/
def Enters (around : List Shell.Expr) (arithmetic : Bool) (context : Context) : Prop :=
  match context.wrapping arithmetic with
  | .arithmetic => ∃ inner, Shell.Expr.arithmetic inner ∈ around
  | .test | .bare => context.Admits around arithmetic

variable {context : Context} {arithmetic : Bool} {around : List Shell.Expr}

/-- What computes a number is in an expansion, or is the whole test or stands in an inner
comparison. -/
theorem Enters.expanded {node : Shell.Expr} (h : context.Enters around true) :
    Shell.Occurrence.Expanded ⟨around, node⟩ ∨ around = [] ∨
      Shell.Occurrence.InnerCompared ⟨around, node⟩ := by
  cases context with
  | value | operand | arithmetic => exact .inl h
  | condition => exact .inr (.inl h)
  | part => exact .inr (.inr (h.2 rfl))

/-- An operation is placed well. -/
theorem Enters.placed {op : Operator} {left right : Shell.Expr}
    (h : context.Enters around op.isArithmetic) :
    Shell.Occurrence.Placed
      ⟨around, .binary ((context.inside op.isArithmetic).spelling op) left right⟩ := by
  cases harithmetic : op.isArithmetic with
  | true =>
      rw [harithmetic] at h
      exact Shell.Occurrence.placed_of_mem_arithmeticOperators (spelling_mem harithmetic _)
        h.expanded
  | false =>
      rw [harithmetic] at h
      have hcompares := Operator.testSpelling_mem harithmetic
      cases context with
      | value | arithmetic => exact .inl h
      | condition | operand | part => exact .inr (.inl hcompares)

/-- The parts of an operation stand where the context says. -/
theorem Enters.admits {node : Shell.Expr} {arithmetic' : Bool}
    (h : context.Enters around arithmetic)
    (hnode : context.inside arithmetic = .part → arithmetic' = true →
      arithmetic = true ∨ node.isComparison = true) :
    (context.inside arithmetic).Admits (node :: around) arithmetic' := by
  cases context with
  | value | arithmetic =>
      rcases h with ⟨inner, hinner⟩
      exact ⟨inner, List.mem_cons_of_mem _ hinner⟩
  | condition => exact ⟨node, by rw [show around = [] from h]⟩
  | operand =>
      cases arithmetic with
      | true =>
          rcases h with ⟨inner, hinner⟩
          exact ⟨inner, List.mem_cons_of_mem _ hinner⟩
      | false =>
          rcases h with ⟨outermost, rfl⟩
          refine ⟨List.cons_ne_nil _ _, ?_⟩
          intro harithmetic
          rcases hnode rfl harithmetic with h | h
          · contradiction
          · exact ⟨node, List.mem_singleton_self node, h⟩
  | part =>
      rcases h with ⟨hne, hcompared⟩
      refine ⟨List.cons_ne_nil _ _, ?_⟩
      intro harithmetic
      rw [List.dropLast_cons_of_ne_nil hne]
      rcases hnode rfl harithmetic with h | h
      · rcases hcompared h with ⟨e, he, hcomparison⟩
        exact ⟨e, List.mem_cons_of_mem _ he, hcomparison⟩
      · exact ⟨node, List.mem_cons_self, h⟩

end Context

/-! ### Expressions -/

section

variable {around : List Shell.Expr} {inner : Shell.Expr}

/-- What an operation is put into is placed well if the operation is. -/
theorem Context.placed_wrapping {context : Context} {arithmetic : Bool}
    (hinner : inner.unbracketed = inner) (hadmits : context.Admits around arithmetic)
    (h : ∀ around', context.Enters around' arithmetic →
      ∀ o ∈ inner.occurrences around', o.Placed) :
    ∀ o ∈ ((context.wrapping arithmetic).apply inner).unbracketed.occurrences around,
      o.Placed := by
  have hexpansion : context.wrapping arithmetic = .arithmetic →
      Shell.Occurrence.Placed ⟨around, .arithmetic inner⟩ →
      ∀ o ∈ (Shell.Expr.arithmetic inner).occurrences around, o.Placed := by
    intro hwrapping hplaced
    rw [Shell.Expr.occurrences, List.forall_mem_cons]
    refine ⟨hplaced, h _ ?_⟩
    rw [Enters, hwrapping]
    exact ⟨inner, List.mem_cons_self⟩
  have hbare : context.Enters around arithmetic →
      ∀ o ∈ inner.unbracketed.occurrences around, o.Placed := by
    intro henters
    rw [hinner]
    exact h around henters
  cases context with
  | value => exact hexpansion rfl (.inl hadmits)
  | condition =>
      rw [hinner] at hbare
      exact hbare hadmits
  | operand =>
      cases arithmetic with
      | true => exact hexpansion rfl (.inr hadmits)
      | false => exact hbare hadmits
  | part | arithmetic => exact hbare hadmits

/-- The output of a call is placed well wherever the call is. -/
theorem CallForm.placed_apply (form : CallForm) (hinner : inner.unbracketed = inner)
    (h : ∀ around', ∀ o ∈ inner.occurrences around', o.Placed) :
    ∀ o ∈ (form.apply inner).unbracketed.occurrences around, o.Placed := by
  cases form with
  | plain =>
      rw [apply, hinner]
      exact h around
  | nested depth =>
      change ∀ o ∈ (Shell.Expr.substitution inner).occurrences around, o.Placed
      rw [Shell.Expr.occurrences, List.forall_mem_cons]
      exact ⟨trivial, h _⟩

end

/-- What an operation is put into is no word of an expansion. -/
theorem Context.isWord_wrapping (context : Context) (arithmetic : Bool) {inner : Shell.Expr}
    (h : inner.isWord = false) : ((context.wrapping arithmetic).apply inner).isWord = false := by
  cases context.wrapping arithmetic with
  | test | arithmetic => rfl
  | bare => exact h

namespace Expr

/-- What an expression becomes in a context is placed well if the nodes around it are those
of that context.  Words of expansions are placed well anywhere. -/
theorem Expressed.placed {context : Context} {e : Expr π} {shell : Shell.Expr}
    (h : Expressed context e shell) {around : List Shell.Expr}
    (hadmits : shell.isWord = true ∨ context.Admits around e.isArithmetic) :
    ∀ o ∈ shell.unbracketed.occurrences around, o.Placed := by
  induction h generalizing around with
  | literal | name | number => exact List.forall_mem_singleton.mpr trivial
  | @command context form callee cp p arguments shell hcallee harguments ih =>
      rcases Shell.Expr.ofCall_eq callee (arguments.map shell) with ⟨name, redirects, hcall⟩
      rw [hcall]
      apply form.placed_apply rfl
      intro around'
      rw [Shell.Expr.occurrences_eq, Shell.Expr.children, List.flatMap_map, List.forall_mem_cons]
      refine ⟨trivial, ?_⟩
      intro o ho
      rcases List.mem_flatMap.mp ho with ⟨e, he, ho⟩
      rw [← (harguments e he).unbracketed_eq (by decide)] at ho
      exact ih e he (.inr ⟨_, List.mem_cons_self, rfl⟩) o ho
  | @expansion context form callee text cp tp p words shell x expansion hcallee hforms htakes
      hwords ih =>
      have hword := htakes.isWord
      apply form.placed_apply (Shell.Expr.unbracketed_of_isWord hword)
      intro around'
      rw [Shell.Expr.occurrences_eq, htakes.children, List.flatMap_map, List.forall_mem_cons]
      refine ⟨Shell.Occurrence.placed_of_isWord hword, ?_⟩
      intro o ho
      rcases List.mem_flatMap.mp ho with ⟨e, he, ho⟩
      rw [← Shell.Expr.unbracketed_of_isWord (hforms e he)] at ho
      exact ih e he (.inl (hforms e he)) o ho
  | @binary context op left right p l r hleft hright ihleft ihright =>
      rw [hleft.unbracketed_eq (context.inside_ne_condition _)] at ihleft
      rw [hright.unbracketed_eq (context.inside_ne_condition _)] at ihright
      rw [Context.isWord_wrapping _ _ rfl, isArithmetic] at hadmits
      have hadmits := hadmits.resolve_left Bool.false_ne_true
      apply Context.placed_wrapping rfl hadmits
      intro around' henters
      have hnode : context.inside op.isArithmetic = .part → op.isArithmetic = true ∨
          (Shell.Expr.binary ((context.inside op.isArithmetic).spelling op) l r).isComparison =
            true := by
        intro hinside
        by_cases harithmetic : op.isArithmetic = true
        · exact .inl harithmetic
        · rw [hinside]
          have hcompares := Operator.testSpelling_mem (Bool.eq_false_iff.mpr harithmetic)
          exact .inr (List.contains_iff_mem.mpr hcompares)
      rw [Shell.Expr.occurrences, List.forall_mem_cons, List.forall_mem_append]
      refine ⟨henters.placed, ihleft (.inr ?_), ihright (.inr ?_)⟩
      · exact henters.admits fun hinside _ => hnode hinside
      · exact henters.admits fun hinside _ => hnode hinside
  | @group context inner p body hinner ih =>
      rw [hinner.unbracketed_eq (context.inside_ne_condition _)] at ih
      rw [Context.isWord_wrapping _ _ rfl, isArithmetic] at hadmits
      have hadmits := hadmits.resolve_left Bool.false_ne_true
      apply Context.placed_wrapping rfl hadmits
      intro around' henters
      rw [Shell.Expr.occurrences, List.forall_mem_cons]
      refine ⟨trivial, ih (.inr (henters.admits ?_))⟩
      intro _ harithmetic
      exact .inl harithmetic
  | @negate context inner p body hnumber hinner ih =>
      rw [hinner.unbracketed_eq (context.inside_ne_condition _)] at ih
      rw [Context.isWord_wrapping _ _ rfl, isArithmetic] at hadmits
      have hadmits := hadmits.resolve_left Bool.false_ne_true
      apply Context.placed_wrapping rfl hadmits
      intro around' henters
      rw [Shell.Expr.occurrences, List.forall_mem_cons, List.forall_mem_append]
      have hminus : "-" ∈ Shell.arithmeticOperators := by simp [Shell.arithmeticOperators]
      refine ⟨?_, List.forall_mem_singleton.mpr trivial, ih (.inr ?_)⟩
      · exact Shell.Occurrence.placed_of_mem_arithmeticOperators hminus henters.expanded
      · exact henters.admits fun _ _ => .inl rfl

end Expr

/-! ### Tests -/

/-- How arithmetic stands in a test. -/
structure Shell.Expr.ArithmeticApart (test : Shell.Expr) : Prop where
  /-- Arithmetic is in an expansion, unless it is the whole test or stands in an inner
  comparison. -/
  operation : ∀ o ∈ test.occurrences [], ∀ operator left right,
    o.node = .binary operator left right → operator ∈ Shell.arithmeticOperators →
      o.Expanded ∨ o.around = [] ∨ o.InnerCompared
  /-- All other operations outside expansions compare. -/
  comparison : ∀ o ∈ test.occurrences [], ∀ operator left right,
    o.node = .binary operator left right → ¬ o.Expanded →
      operator ∉ Shell.arithmeticOperators → operator ∈ Shell.testOperators
  /-- An expansion is a direct part of the test, unless it is among the arguments of a
  command. -/
  expansion : ∀ o ∈ test.occurrences [], ∀ inner, o.node = .arithmetic inner →
    o.InCommand ∨ ∃ outermost, o.around = [outermost]
  /-- An expansion has double parentheses of its own in the text of the test. -/
  written : ∀ o ∈ test.occurrences [], ∀ inner, o.node = .arithmetic inner →
    ("$(( " ++ inner.layout false ++ " ))").toList <:+:
      ("[ " ++ test.layout true ++ " ]").toList

/-- If all of its nodes are placed well, arithmetic stands apart in a test. -/
theorem Shell.Expr.arithmeticApart_of_placed {test : Shell.Expr}
    (h : ∀ o ∈ test.occurrences [], o.Placed) : test.ArithmeticApart := by
  have hoperation : ∀ o ∈ test.occurrences [], ∀ operator left right,
      o.node = .binary operator left right → o.Expanded ∨ operator ∈ Shell.testOperators ∨
        operator ∈ Shell.arithmeticOperators ∧ (o.around = [] ∨ o.InnerCompared) := by
    intro o ho operator left right hnode
    have hplaced := h o ho
    rw [Occurrence.Placed, hnode] at hplaced
    exact hplaced
  constructor
  case operation =>
    intro o ho operator left right hnode harithmetic
    rcases hoperation o ho operator left right hnode with hexpanded | hcompares | ⟨_, hbare⟩
    · exact .inl hexpanded
    · have hdisjoint : ∀ op ∈ Shell.testOperators, op ∉ Shell.arithmeticOperators := by
        simp [testOperators, arithmeticOperators]
      exact absurd harithmetic (hdisjoint operator hcompares)
    · exact .inr hbare
  case comparison =>
    intro o ho operator left right hnode hexpanded hother
    rcases hoperation o ho operator left right hnode with h | hcompares | ⟨harithmetic, _⟩
    · exact absurd h hexpanded
    · exact hcompares
    · exact absurd harithmetic hother
  case expansion =>
    intro o ho inner hnode
    have hplaced := h o ho
    rw [Occurrence.Placed, hnode] at hplaced
    exact hplaced
  case written =>
    intro o ho inner hnode
    rcases isInfix_layout ho true with ⟨inTest, htext⟩
    rw [hnode, layout] at htext
    exact htext.trans (isInfix_append _ _ _)

/-- Arithmetic stands apart in the tests of a shell script for a script. -/
theorem Script.arithmeticApart_of_toShell {s : Script π} {shell : Shell.Script}
    (h : s.toShell = .ok shell) {test : Shell.Expr} (htest : (.test, test) ∈ shell.roots) :
    test.ArithmeticApart := by
  rcases Script.exists_expressedRoot h htest with ⟨r, hr⟩
  cases hr with
  | test he => exact Shell.Expr.arithmeticApart_of_placed (he.placed (.inr rfl))

/-! ### Compiling -/

/-- A script that is compiled is read, and its flattened form is expressed in the shell. -/
theorem exists_of_compile {source : Source} {width : Nat} {text : String}
    (h : compile source width = .ok text) :
    ∃ script shell, Script.parse source = .ok script ∧ script.flatten.toShell = .ok shell ∧
      text = shell.layout width := by
  rw [compile] at h
  cases hparse : Script.parse source with
  | error e =>
      rw [hparse] at h
      contradiction
  | ok script =>
      rw [hparse] at h
      change script.flatten.compile width = .ok text at h
      rw [Script.compile, Script.express] at h
      cases hshell : script.flatten.toShell with
      | error problems =>
          rw [hshell] at h
          contradiction
      | ok shell =>
          rw [hshell] at h
          cases h
          exact ⟨script, shell, rfl, hshell, rfl⟩

/-- In every test of a script that is compiled, arithmetic is in an expansion, which is
written with double parentheses of its own, and the other operations compare.  Only
arithmetic that is the whole test or stands in an inner comparison is written bare. -/
theorem compile_arithmetic_apart {source : Source} {width : Nat} {text : String}
    (h : compile source width = .ok text) :
    ∃ script shell, Script.parse source = .ok script ∧ script.flatten.toShell = .ok shell ∧
      text = shell.layout width ∧
      ∀ test, (.test, test) ∈ shell.roots → test.ArithmeticApart ∧
        ("[ " ++ test.layout true ++ " ]").toList <:+: text.toList := by
  rcases exists_of_compile h with ⟨script, shell, hparse, hshell, htext⟩
  refine ⟨script, shell, hparse, hshell, htext, ?_⟩
  intro test htest
  constructor
  · exact Script.arithmeticApart_of_toShell hshell htest
  · rw [htext]
    have hwritten := Shell.Script.isInfix_layout_of_test htest width
    rw [Shell.Expr.layout] at hwritten
    exact hwritten

/-- A script that tests a condition and then does nothing. -/
def Source.ofCondition (condition : String) : Source :=
  Utf8.encode ("if " ++ condition ++ " \x7b\n\x7d\n")

/-- A condition that compares a sum with the output of a command, whose argument is a product. -/
theorem compile_arithmetic_apart_compared :
    ∃ text, compile (.ofCondition "a + 1 > f(b * 2)") 4 = .ok text ∧
      text = "#!/bin/sh\n\nif [ $(( $A + 1 )) -gt $(f $(( $B * 2 ))) ]; then\n    :\nfi\n" ∧
      ∃ script shell, Script.parse (.ofCondition "a + 1 > f(b * 2)") = .ok script ∧
        script.flatten.toShell = .ok shell ∧ text = shell.layout 4 ∧
        ∀ test, (.test, test) ∈ shell.roots → test.ArithmeticApart ∧
          ("[ " ++ test.layout true ++ " ]").toList <:+: text.toList := by
  have hcompile : compile (.ofCondition "a + 1 > f(b * 2)") 4 =
      .ok "#!/bin/sh\n\nif [ $(( $A + 1 )) -gt $(f $(( $B * 2 ))) ]; then\n    :\nfi\n" := by
    decide +kernel
  exact ⟨_, hcompile, rfl, compile_arithmetic_apart hcompile⟩

/-- In the tests of a script, each operation of arithmetic is in an expansion. -/
def Source.ExpandsArithmetic (source : Source) : Prop :=
  ∀ script shell, Script.parse source = .ok script → script.flatten.toShell = .ok shell →
    ∀ test, (.test, test) ∈ shell.roots → ∀ o ∈ test.occurrences [], ∀ operator left right,
      o.node = .binary operator left right → operator ∈ Shell.arithmeticOperators → o.Expanded

/-- The condition `a + 1`. -/
def Expr.sumCondition : Expr Span :=
  .binary .add (.name "a" ⟨3, 4⟩) (.literal .number "1" ⟨7, 8⟩) ⟨3, 8⟩

/-- The condition `(a == b + 1) == c`. -/
def Expr.comparedCondition : Expr Span :=
  let sum : Expr Span :=
    .binary .add (.name "b" ⟨9, 10⟩) (.literal .number "1" ⟨13, 14⟩) ⟨9, 14⟩
  .binary .equal (.group (.binary .equal (.name "a" ⟨4, 5⟩) sum ⟨4, 14⟩) ⟨3, 15⟩)
    (.name "c" ⟨19, 20⟩) ⟨3, 20⟩

/-- Arithmetic that is a whole condition or stands in an inner comparison is written bare. -/
theorem compile_arithmetic_bare :
    compile (.ofCondition "a + 1") 4 =
        .ok "#!/bin/sh\n\nif [ \"$A\" + 1 ]; then\n    :\nfi\n" ∧
      ¬ Source.ExpandsArithmetic (.ofCondition "a + 1") ∧
      compile (.ofCondition "(a == b + 1) == c") 4 =
        .ok "#!/bin/sh\n\nif [ \\( \"$A\" = \"$B\" + 1 \\) = \"$C\" ]; then\n    :\nfi\n" ∧
      ¬ Source.ExpandsArithmetic (.ofCondition "(a == b + 1) == c") := by
  refine ⟨by decide +kernel, ?_, by decide +kernel, ?_⟩
  · intro h
    have hread : Script.read (.ofCondition "a + 1") =
        (⟨[.cond Expr.sumCondition [] ⟨9, 12⟩ .absent ⟨0, 12⟩]⟩, []) := by decide +kernel
    rcases h _ _ (Script.parse_eq_ok_iff.mpr hread) rfl _ List.mem_cons_self _ List.mem_cons_self
      "+" _ _ rfl (by simp [Shell.arithmeticOperators]) with ⟨inner, hinner⟩
    exact absurd hinner List.not_mem_nil
  · intro h
    have hread : Script.read (.ofCondition "(a == b + 1) == c") =
        (⟨[.cond Expr.comparedCondition [] ⟨21, 24⟩ .absent ⟨0, 24⟩]⟩, []) := by decide +kernel
    let sum : Shell.Expr := .binary "+" (.value "B" true) (.text "1")
    let compared : Shell.Expr := .binary "=" (.value "A" true) sum
    let test : Shell.Expr := .binary "=" (.group compared) (.value "C" true)
    have hsum : ⟨[compared, .group compared, test], sum⟩ ∈ test.occurrences [] := by
      simp [test, compared, sum, Shell.Expr.occurrences]
    rcases h _ _ (Script.parse_eq_ok_iff.mpr hread) rfl test List.mem_cons_self _ hsum
      "+" _ _ rfl (by simp [Shell.arithmeticOperators]) with ⟨inner, hinner⟩
    simp [test, compared, sum] at hinner

end Shellward
