import Shellward.Proofs.Script.Roots

/-!
# What expressions are read as

The shell reads the text of an expression in one of three ways: as a plain value, as part
of a test, or as part of an arithmetic expansion.  Every node of a shell script that
stands for a script fits the way in which it is read, and its operations are those of the
script, spelt as they are read.

Main results:

- Theorem `Expr.Expressed.scoped`: what an expression becomes in a context fits the way in
  which that context is read.
- Theorem `Script.toShell_scoped`: the same for all nodes of a shell script.
-/

namespace Shellward

variable {π : Type}

/-! ### Fitting nodes -/

namespace Shell

/-- Whether a node fits the way in which it is read: no test is nested, operations and
groups are never plain, an arithmetic expansion holds no other, and the variables that are
quoted are those of tests. -/
def Expr.FitsScope (scope : Scope) : Expr → Prop
  | .test _ => False
  | .binary .. | .group _ => scope ≠ .plain
  | .arithmetic _ => scope ≠ .arithmetic
  | .value _ quoted => quoted = true ↔ scope = .test
  | .text _ | .command .. | .substitution _ | .length _ | .replace .. | .remove .. => True

/-- The operator of an expression that is an operation. -/
def Expr.operator? : Expr → Option String
  | .binary operator _ _ => some operator
  | _ => none

/-- The operation that a node of a root is: what it is read as, and its operator. -/
def Occurrence.operation? (root : Scope) (o : Occurrence) : Option (Scope × String) :=
  o.node.operator?.map fun operator => (root.inside o.around, operator)

/-- The operations of a script in order, with what they are read as. -/
def Script.operations (s : Script) : List (Scope × String) :=
  s.roots.flatMap fun root => (root.2.occurrences []).filterMap (Occurrence.operation? root.1)

end Shell

/-! ### Operations of scripts -/

/-- What an operation does: apply a binary operator, or change a sign. -/
inductive Operation where
  | binary (operator : Operator)
  | negate

/-- How an operation of a script is spelt in the shell, by what it is read as. -/
inductive Operation.Spelt : Operation → Shell.Scope × String → Prop where
  | arithmetic (operator : Operator) : Spelt (.binary operator) (.arithmetic, operator.spelling)
  | test (operator : Operator) : Spelt (.binary operator) (.test, operator.testSpelling)
  | negate {scope : Shell.Scope} (h : scope ≠ .plain) : Spelt .negate (scope, "-")

/-- The operation that an expression is; the sign of a number belongs to the number. -/
def Expr.operation? : Expr π → Option Operation
  | .binary operator _ _ _ => some (.binary operator)
  | .negate inner _ => if inner.number?.isSome then none else some .negate
  | _ => none

/-- The operations of a script in order. -/
def Script.operations (s : Script π) : List Operation :=
  s.roots.flatMap fun root => root.2.parts.filterMap Expr.operation?

/-! ### Expressions and their nodes -/

/-- The nodes of a shell expression fit, and their operations are those of some
expressions. -/
structure Scoped (root : Shell.Scope) (es : List (Expr π)) (os : List Shell.Occurrence) :
    Prop where
  fits : ∀ o ∈ os, o.node.FitsScope (root.inside o.around)
  spelt : List.Forall₂ Operation.Spelt (es.filterMap Expr.operation?)
    (os.filterMap (Shell.Occurrence.operation? root))

namespace Scoped

variable {root : Shell.Scope} {e : Expr π} {es es' : List (Expr π)} {o : Shell.Occurrence}
  {os os' : List Shell.Occurrence}

theorem nil : Scoped root ([] : List (Expr π)) [] :=
  ⟨List.forall_mem_nil _, .nil⟩

/-- The nodes of two parts fit if those of both do. -/
theorem append (h : Scoped root es os) (h' : Scoped root es' os') :
    Scoped root (es ++ es') (os ++ os') := by
  constructor
  · exact List.forall_mem_append.mpr ⟨h.fits, h'.fits⟩
  · rw [List.filterMap_append, List.filterMap_append]
    exact List.rel_append h.spelt h'.spelt

/-- The nodes of several parts fit if those of each do. -/
theorem flatMap {α : Type} {f : α → List (Expr π)} {g : α → List Shell.Occurrence} {as : List α}
    (h : ∀ a ∈ as, Scoped root (f a) (g a)) : Scoped root (as.flatMap f) (as.flatMap g) := by
  induction as with
  | nil => exact nil
  | cons a as ih =>
      rcases List.forall_mem_cons.mp h with ⟨ha, has⟩
      rw [List.flatMap_cons, List.flatMap_cons]
      exact ha.append (ih has)

/-- An expression that is no operation asks for no node. -/
theorem cons_expr (he : e.operation? = none) (h : Scoped root es os) :
    Scoped root (e :: es) os := by
  constructor
  · exact h.fits
  · rw [List.filterMap_cons_none he]
    exact h.spelt

/-- A node that fits and is no operation stands for no expression. -/
theorem cons_node (hfits : o.node.FitsScope (root.inside o.around))
    (ho : o.node.operator? = none) (h : Scoped root es os) : Scoped root es (o :: os) := by
  have hoperation : o.operation? root = none := by
    rw [Shell.Occurrence.operation?, ho, Option.map_none]
  constructor
  · exact List.forall_mem_cons.mpr ⟨hfits, h.fits⟩
  · rw [List.filterMap_cons_none hoperation]
    exact h.spelt

/-- A node may be the operation that an expression is. -/
theorem cons_operation {operation : Operation} {operator : String}
    (he : e.operation? = some operation) (ho : o.node.operator? = some operator)
    (hfits : o.node.FitsScope (root.inside o.around))
    (hspelt : operation.Spelt (root.inside o.around, operator)) (h : Scoped root es os) :
    Scoped root (e :: es) (o :: os) := by
  have hoperation : o.operation? root = some (root.inside o.around, operator) := by
    rw [Shell.Occurrence.operation?, ho, Option.map_some]
  constructor
  · exact List.forall_mem_cons.mpr ⟨hfits, h.fits⟩
  · rw [List.filterMap_cons_some he, List.filterMap_cons_some hoperation]
    exact .cons hspelt h.spelt

end Scoped

/-! ### Contexts -/

namespace Context

/-- What an expression in a context is read as. -/
def scope : Context → Shell.Scope
  | .value => .plain
  | .condition | .operand | .part => .test
  | .arithmetic => .arithmetic

/-- Variables are quoted exactly where they are read as parts of a test. -/
theorem quotes_iff (context : Context) : context.quotes = true ↔ context.scope = .test := by
  cases context <;> decide

/-- Inside an operation nothing is a condition. -/
theorem inside_ne_condition (context : Context) (arithmetic : Bool) :
    context.inside arithmetic ≠ .condition := by
  cases context <;> cases arithmetic <;> decide

/-- Inside an operation nothing is plain. -/
theorem scope_inside_ne_plain (context : Context) (arithmetic : Bool) :
    (context.inside arithmetic).scope ≠ .plain := by
  cases context <;> cases arithmetic <;> decide

/-- Only conditions are put into a test. -/
theorem unbracketed_wrapping {context : Context} (h : context ≠ .condition) (arithmetic : Bool)
    {inner : Shell.Expr} (hinner : inner.unbracketed = inner) :
    ((context.wrapping arithmetic).apply inner).unbracketed =
      (context.wrapping arithmetic).apply inner := by
  cases context with
  | condition => exact absurd rfl h
  | value => rfl
  | operand =>
      cases arithmetic with
      | true => rfl
      | false => exact hinner
  | part | arithmetic => exact hinner

/-- An operator is spelt as its operands are read. -/
theorem spelt_inside (context : Context) (arithmetic : Bool) (op : Operator) :
    Operation.Spelt (.binary op)
      ((context.inside arithmetic).scope, (context.inside arithmetic).spelling op) := by
  cases hcontext : context.inside arithmetic with
  | value => exact absurd (congrArg scope hcontext) (context.scope_inside_ne_plain arithmetic)
  | condition => exact absurd hcontext (context.inside_ne_condition arithmetic)
  | operand | part => exact .test op
  | arithmetic => exact .arithmetic op

end Context

/-! ### Wrappings and forms -/

section

variable {root : Shell.Scope} {around : List Shell.Expr} {inner : Shell.Expr}
  {es : List (Expr π)}

/-- What an operation is put into fits if the operation fits in it. -/
theorem Scoped.wrapping {context : Context} {arithmetic : Bool}
    (hinner : inner.unbracketed = inner) (hscope : root.inside around = context.scope)
    (h : ∀ around', root.inside around' = (context.inside arithmetic).scope →
      Scoped root es (inner.occurrences around')) :
    Scoped root es
      (((context.wrapping arithmetic).apply inner).unbracketed.occurrences around) := by
  have hexpansion : context.scope ≠ .arithmetic → (context.inside arithmetic).scope = .arithmetic →
      Scoped root es ((Shell.Expr.arithmetic inner).occurrences around) := by
    intro hfits hinside
    rw [← hscope] at hfits
    rw [Shell.Expr.occurrences]
    refine cons_node hfits rfl (h _ ?_)
    rw [hinside, Shell.Scope.inside_cons]
    rfl
  have hbare : (context.inside arithmetic).scope = context.scope →
      Scoped root es (inner.unbracketed.occurrences around) := by
    intro hinside
    rw [hinner]
    exact h around (hscope.trans hinside.symm)
  cases context with
  | value => exact hexpansion (by decide) rfl
  | condition =>
      rw [hinner] at hbare
      exact hbare rfl
  | operand =>
      cases arithmetic with
      | true => exact hexpansion (by decide) rfl
      | false => exact hbare rfl
  | part | arithmetic => exact hbare rfl

/-- The output of a call fits wherever the call does. -/
theorem Scoped.form {scope : Shell.Scope} (form : CallForm) (hinner : inner.unbracketed = inner)
    (hscope : root.inside around = scope)
    (h : ∀ around', root.inside around' = scope → Scoped root es (inner.occurrences around')) :
    Scoped root es ((form.apply inner).unbracketed.occurrences around) := by
  cases form with
  | plain =>
      rw [CallForm.apply, hinner]
      exact h around hscope
  | nested depth =>
      change Scoped root es ((Shell.Expr.substitution inner).occurrences around)
      rw [Shell.Expr.occurrences]
      apply cons_node (by trivial) rfl
      apply h
      rw [Shell.Scope.inside_cons]
      exact hscope

end

/-! ### Expressions -/

namespace Shell.Expr

variable {e : Shell.Expr}

/-- A word has no brackets of a test. -/
theorem unbracketed_of_isWord (h : e.isWord = true) : e.unbracketed = e := by
  cases e <;> simp_all [isWord, unbracketed]

theorem operator?_of_isWord (h : e.isWord = true) : e.operator? = none := by
  cases e <;> simp_all [isWord, operator?]

theorem opens?_of_isWord (h : e.isWord = true) : e.opens? = none := by
  cases e <;> simp_all [isWord, opens?]

/-- A word fits every way of being read. -/
theorem fitsScope_of_isWord (h : e.isWord = true) (scope : Scope) : e.FitsScope scope := by
  cases e <;> simp_all [isWord, FitsScope]

end Shell.Expr

/-- The nodes inside an expansion are its words. -/
theorem Expansion.Takes.children {name : String} {x : Expansion} {words : List Shell.Expr}
    {expansion : Shell.Expr} (h : x.Takes name words expansion) : expansion.children = words := by
  cases h <;> rfl

/-- A call is a command with the same arguments. -/
theorem Shell.Expr.ofCall_eq (callee : String) (arguments : List Shell.Expr) :
    ∃ name redirects, Shell.Expr.ofCall callee arguments = .command name arguments redirects := by
  rw [ofCall]
  split
  · exact ⟨_, _, rfl⟩
  · exact ⟨_, _, rfl⟩

namespace Expr

/-- Only a condition becomes a test. -/
theorem Expressed.unbracketed_eq {context : Context} {e : Expr π} {shell : Shell.Expr}
    (h : Expressed context e shell) (hcontext : context ≠ .condition) :
    shell.unbracketed = shell := by
  cases h with
  | literal | name | number => rfl
  | @command _ form callee _ _ arguments shell =>
      rcases Shell.Expr.ofCall_eq callee (arguments.map shell) with ⟨name, redirects, hcall⟩
      rw [hcall]
      cases form <;> rfl
  | @expansion _ form _ _ _ _ _ _ _ _ _ _ _ htakes =>
      cases form with
      | plain => exact Shell.Expr.unbracketed_of_isWord htakes.isWord
      | nested => rfl
  | binary | group | negate => exact Context.unbracketed_wrapping hcontext _ rfl

/-- What an expression becomes in a context fits the way in which that context is read. -/
theorem Expressed.scoped {context : Context} {e : Expr π} {shell : Shell.Expr}
    (h : Expressed context e shell) {root : Shell.Scope} {around : List Shell.Expr}
    (hscope : root.inside around = context.scope) :
    Scoped root e.parts (shell.unbracketed.occurrences around) := by
  induction h generalizing around with
  | literal kind text p =>
      rw [parts]
      exact .cons_expr rfl (.cons_node (by trivial) rfl .nil)
  | name text p =>
      rw [parts]
      apply Scoped.cons_expr rfl
      apply Scoped.cons_node _ rfl .nil
      rw [hscope]
      exact Context.quotes_iff _
  | @command context form callee cp p arguments shell hcallee harguments ih =>
      rcases Shell.Expr.ofCall_eq callee (arguments.map shell) with ⟨name, redirects, hcall⟩
      rw [parts, hcall]
      apply Scoped.cons_expr rfl
      apply Scoped.form form rfl hscope
      intro around' _
      rw [Shell.Expr.occurrences_eq]
      apply Scoped.cons_node (by trivial) rfl
      rw [Shell.Expr.children, allParts_eq, List.flatMap_map]
      apply Scoped.flatMap
      intro e he
      -- The arguments are read as plain values, whatever the command stands in.
      have hplain : root.inside (.command name (arguments.map shell) redirects :: around') =
          Context.value.scope := by
        rw [Shell.Scope.inside_cons]
        rfl
      have hargument := ih e he hplain
      rw [(harguments e he).unbracketed_eq (by decide)] at hargument
      exact hargument
  | @expansion context form callee text cp tp p words shell x expansion hcallee hforms htakes
      hwords ih =>
      have hword := htakes.isWord
      rw [parts, allParts, parts, List.singleton_append]
      apply Scoped.cons_expr rfl
      apply Scoped.cons_expr rfl
      apply Scoped.form form (Shell.Expr.unbracketed_of_isWord hword) hscope
      intro around' hscope'
      rw [Shell.Expr.occurrences_eq]
      apply Scoped.cons_node (Shell.Expr.fitsScope_of_isWord hword _)
        (Shell.Expr.operator?_of_isWord hword)
      rw [htakes.children, allParts_eq, List.flatMap_map]
      apply Scoped.flatMap
      intro e he
      have hsame : root.inside (expansion :: around') = context.scope := by
        rw [Shell.Scope.inside_cons, Shell.Expr.opens?_of_isWord hword]
        exact hscope'
      have hargument := ih e he hsame
      rw [Shell.Expr.unbracketed_of_isWord (hforms e he)] at hargument
      exact hargument
  | @binary context op left right p l r hleft hright ihleft ihright =>
      have hl := hleft.unbracketed_eq (context.inside_ne_condition _)
      have hr := hright.unbracketed_eq (context.inside_ne_condition _)
      rw [hl] at ihleft
      rw [hr] at ihright
      rw [parts]
      apply Scoped.wrapping rfl hscope
      intro around' hscope'
      rw [Shell.Expr.occurrences]
      refine Scoped.cons_operation rfl rfl ?_ ?_ ((ihleft ?_).append (ihright ?_))
      · exact hscope' ▸ context.scope_inside_ne_plain _
      · exact hscope' ▸ context.spelt_inside _ op
      · exact hscope'
      · exact hscope'
  | @group context inner p body hinner ih =>
      have hbody := hinner.unbracketed_eq (context.inside_ne_condition _)
      rw [hbody] at ih
      rw [parts]
      apply Scoped.cons_expr rfl
      apply Scoped.wrapping rfl hscope
      intro around' hscope'
      rw [Shell.Expr.occurrences]
      refine Scoped.cons_node ?_ rfl (ih ?_)
      · exact hscope' ▸ context.scope_inside_ne_plain _
      · exact hscope'
  | number text q p =>
      rw [parts, parts]
      exact .cons_expr rfl (.cons_expr rfl (.cons_node (by trivial) rfl .nil))
  | @negate context inner p body hnumber hinner ih =>
      have hbody := hinner.unbracketed_eq (context.inside_ne_condition _)
      rw [hbody] at ih
      rw [parts]
      apply Scoped.wrapping rfl hscope
      intro around' hscope'
      rw [Shell.Expr.occurrences, Shell.Expr.occurrences]
      have hoperation : (Expr.negate inner p).operation? = some .negate := by
        rw [operation?, hnumber]
        rfl
      refine Scoped.cons_operation hoperation rfl ?_ ?_ (.cons_node (by trivial) rfl (ih ?_))
      · exact hscope' ▸ context.scope_inside_ne_plain _
      · exact .negate (hscope' ▸ context.scope_inside_ne_plain _)
      · exact hscope'

/-- What a root becomes fits the way in which it is read. -/
theorem ExpressedRoot.scoped {r : Shell.Scope × Expr π} {root : Shell.Scope × Shell.Expr}
    (h : ExpressedRoot r root) : Scoped root.1 r.2.parts (root.2.occurrences []) := by
  cases h with
  | @value e shell h =>
      have hscoped : Scoped .plain e.parts (shell.unbracketed.occurrences []) := h.scoped rfl
      rw [h.unbracketed_eq (by decide)] at hscoped
      exact hscoped
  | test h => exact h.scoped rfl

end Expr

/-! ### Scripts -/

/-- Every node of a shell script for a script fits the way in which it is read: no test is
nested, operations and groups are in tests and in arithmetic expansions only, these are not
nested in one another, and a variable is quoted exactly if it is part of a test.  The
operations are those of the script in the same order, spelt as they are read. -/
theorem Script.toShell_scoped {s : Script π} {shell : Shell.Script} (h : s.toShell = .ok shell) :
    (∀ scope root, (scope, root) ∈ shell.roots →
        ∀ o ∈ root.occurrences [], o.node.FitsScope (scope.inside o.around)) ∧
      List.Forall₂ Operation.Spelt s.operations shell.operations := by
  constructor
  · intro scope root hroot
    rcases Script.exists_expressedRoot h hroot with ⟨r, hr⟩
    exact hr.scoped.fits
  · apply List.rel_flatMap (Script.forall₂_roots h)
    intro r root hr
    exact hr.scoped.spelt

/-- A test of the output of a command with an argument that is computed, and then the other
comparisons, each with an operation of arithmetic. -/
def scopingSample : Script Unit :=
  let argument : Expr Unit := .binary .less (.name "a" ()) (.literal .number "1" ()) ()
  let product : Expr Unit := .binary .multiply (.name "b" ()) (.negate (.name "c" ()) ()) ()
  let compares (comparison operation : Operator) : Expr Unit :=
    .binary comparison (.name "a" ()) (.binary operation (.name "b" ()) (.name "c" ()) ()) ()
  ⟨[.cond (.binary .lessEqual (.call (.nested 1) "f" () [argument] ()) (.group product ()) ()) []
    () (.elseIf (compares .equal .add) [] () (.elseIf (compares .notEqual .subtract) [] ()
      (.elseIf (compares .less .divide) [] () (.elseIf (compares .greater .remainder) [] ()
        (.elseIf (compares .greaterEqual .multiply) [] () .absent))))) ()]⟩

/-- The operations of the sample, by what they are read as. -/
theorem Script.toShell_scoped_sample :
    ∃ shell, scopingSample.toShell = .ok shell ∧
      shell.operations =
        [(.test, "-le"), (.arithmetic, "<"), (.arithmetic, "*"), (.arithmetic, "-"),
          (.test, "="), (.arithmetic, "+"), (.test, "!="), (.arithmetic, "-"),
          (.test, "-lt"), (.arithmetic, "/"), (.test, "-gt"), (.arithmetic, "%"),
          (.test, "-ge"), (.arithmetic, "*")] ∧
      (∀ scope root, (scope, root) ∈ shell.roots →
        ∀ o ∈ root.occurrences [], o.node.FitsScope (scope.inside o.around)) ∧
      List.Forall₂ Operation.Spelt scopingSample.operations shell.operations :=
  ⟨_, rfl, rfl, toShell_scoped rfl⟩

end Shellward
