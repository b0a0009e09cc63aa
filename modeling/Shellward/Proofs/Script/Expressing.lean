import Shellward.Proofs.Script.Parts
import Shellward.Script.ToShell

/-!
# Expressing scripts in the shell

What the expressions of a script become in the shell.  For calls there is one equation
for each kind of call, with what is reported about it.  For expressions about which
nothing is reported, the relation `Expr.Expressed` is the table of all forms.

Main results:

- Theorems `Expr.toShell_command`, `Expr.toShell_misused` and `Expr.toShell_expansion`:
  the kinds of calls.
- Theorem `Expr.expressed_of_problems`: if nothing is reported about an expression, it is
  expressed as the table says.
-/

namespace Shellward

variable {π : Type}

/-- An expression without the brackets of a test around it. -/
def Shell.Expr.unbracketed : Shell.Expr → Shell.Expr
  | .test inner => inner
  | other => other

/-! ### Expansions of a variable -/

/-- The expansion of a variable by exactly the words that it takes. -/
inductive Expansion.Takes (name : String) : Expansion → List Shell.Expr → Shell.Expr → Prop where
  | length : Takes name .length [] (.length name)
  | replace (everywhere : Bool) (pattern replacement : Shell.Expr) :
      Takes name (.replace everywhere) [pattern, replacement]
        (.replace name everywhere pattern replacement)
  | remove (side : TextEnd) (pattern : Shell.Expr) :
      Takes name (.remove side) [pattern] (.remove name side pattern)

namespace Expansion

/-- As many words as an expansion takes make one. -/
theorem exists_takes {x : Expansion} {words : List Shell.Expr} (h : words.length + 1 = x.arity)
    (name : String) :
    ∃ expansion, Takes name x words expansion ∧ x.ofWords? name words = some expansion := by
  cases x with
  | length =>
      have hwords : words = [] := List.eq_nil_of_length_eq_zero (Nat.succ.inj h)
      rw [hwords]
      exact ⟨_, .length, rfl⟩
  | replace everywhere =>
      cases words with
      | nil => exact absurd (Nat.succ.inj h) (Nat.zero_ne_add_one 1)
      | cons pattern rest =>
          have hrest : rest.length = 1 := Nat.succ.inj (Nat.succ.inj h)
          rcases List.length_eq_one_iff.mp hrest with ⟨replacement, rfl⟩
          exact ⟨_, .replace everywhere pattern replacement, rfl⟩
  | remove side =>
      rcases List.length_eq_one_iff.mp (Nat.succ.inj h) with ⟨pattern, rfl⟩
      exact ⟨_, .remove side pattern, rfl⟩

/-- The expansion of a variable is a word. -/
theorem Takes.isWord {name : String} {x : Expansion} {words : List Shell.Expr}
    {expansion : Shell.Expr} (h : Takes name x words expansion) : expansion.isWord = true := by
  cases h <;> rfl

end Expansion

namespace Expr

/-! ### Arguments and words -/

/-- The arguments of a command are expressed one by one. -/
theorem allToShell_eq (es : List (Expr π)) :
    allToShell es = ⟨es.map fun e => (e.toShell .value).value,
      es.flatMap fun e => (e.toShell .value).problems⟩ := by
  induction es with
  | nil =>
      rw [allToShell]
      rfl
  | cons e es ih =>
      rw [allToShell, ih, List.map_cons, List.flatMap_cons]
      simp only [bind, pure, List.append_nil]

/-- If all of them are words, the words of an expansion are expressed one by one. -/
theorem wordsToShell_eq {context : Context} (callee : String) (position : Nat)
    {es : List (Expr π)} (h : ∀ e ∈ es, (e.toShell context).value.isWord = true) :
    wordsToShell context callee position es =
      ⟨some (es.map fun e => (e.toShell context).value),
        es.flatMap fun e => (e.toShell context).problems⟩ := by
  induction es generalizing position with
  | nil =>
      rw [wordsToShell]
      rfl
  | cons e es ih =>
      rcases List.forall_mem_cons.mp h with ⟨he, hes⟩
      rw [wordsToShell, List.map_cons, List.flatMap_cons]
      simp only [bind, pure, he, if_true, ih (position + 1) hes, Option.map_some, List.append_nil]

/-- If nothing is reported about the words of an expansion, all of them are words. -/
theorem isWord_of_wordsToShell {context : Context} {callee : String} {position : Nat}
    {es : List (Expr π)} (h : (wordsToShell context callee position es).problems = []) :
    ∀ e ∈ es, (e.toShell context).value.isWord = true := by
  induction es generalizing position with
  | nil => exact List.forall_mem_nil _
  | cons e es ih =>
      rw [wordsToShell, Checked.problems_bind, List.append_eq_nil_iff] at h
      by_cases hword : (e.toShell context).value.isWord = true
      · rw [if_pos hword, Checked.problems_bind, List.append_eq_nil_iff] at h
        exact List.forall_mem_cons.mpr ⟨hword, ih h.2.1⟩
      · rw [if_neg hword] at h
        simp [Checked.report] at h

/-! ### Calls -/

section Calls

variable {callee : String} {cp p : π} {arguments : List (Expr π)}

/-- A call that is no expansion runs a command. -/
theorem toShell_command (hcallee : Expansion.ofName? callee = none) (form : CallForm)
    (context : Context) :
    (Expr.call form callee cp arguments p).toShell context =
      ⟨form.apply (.ofCall callee (arguments.map fun e => (e.toShell .value).value)),
        arguments.flatMap fun e => (e.toShell .value).problems⟩ := by
  rw [toShell.eq_def]
  simp only [hcallee, allToShell_eq, bind, pure, List.append_nil]

variable {x : Expansion}

/-- A wrong number of arguments is reported, and nothing about the arguments. -/
theorem toShell_misused (hcallee : Expansion.ofName? callee = some x)
    (harity : arguments.length ≠ x.arity) (form : CallForm) (context : Context) :
    (Expr.call form callee cp arguments p).toShell context =
      ⟨form.apply .missing, [⟨.wrongArity callee x.arity arguments.length, p⟩]⟩ := by
  rw [toShell.eq_def]
  simp only [hcallee, harity, if_false, bind, pure, Checked.report, List.append_nil]

/-- An expansion of a variable by words becomes one in the shell. -/
theorem toShell_expansion {text : String} {tp : π} {words : List (Expr π)} {context : Context}
    (hcallee : Expansion.ofName? callee = some x)
    (harity : (Expr.name text tp :: words).length = x.arity)
    (hwords : ∀ e ∈ words, (e.toShell context).value.isWord = true) (form : CallForm) :
    ∃ expansion,
      x.Takes (Text.upper text) (words.map fun e => (e.toShell context).value) expansion ∧
        (Expr.call form callee cp (.name text tp :: words) p).toShell context =
          ⟨form.apply expansion, words.flatMap fun e => (e.toShell context).problems⟩ := by
  have hlength : (words.map fun e => (e.toShell context).value).length + 1 = x.arity := by
    rw [List.length_map, ← harity, List.length_cons]
  rcases Expansion.exists_takes hlength (Text.upper text) with ⟨expansion, htakes, hexpansion⟩
  refine ⟨expansion, htakes, ?_⟩
  rw [toShell.eq_def]
  simp only [hcallee, harity, if_true, name?, wordsToShell_eq callee 2 hwords, Expansion.toShell,
    hexpansion, bind, pure, List.append_nil]

/-- If nothing is reported about a call of an expansion, it has the right number of
arguments, a variable first and then words. -/
theorem exists_of_problems {form : CallForm} {context : Context}
    (hcallee : Expansion.ofName? callee = some x)
    (h : ((Expr.call form callee cp arguments p).toShell context).problems = []) :
    arguments.length = x.arity ∧ ∃ text tp words, arguments = .name text tp :: words ∧
      ∀ e ∈ words, (e.toShell context).value.isWord = true := by
  by_cases harity : arguments.length = x.arity
  · rw [toShell.eq_def] at h
    simp only [hcallee, harity, if_true] at h
    cases arguments with
    | nil => simp [Checked.report] at h
    | cons target words =>
        cases target with
        | name text tp =>
            simp only [name?, Checked.problems_bind, List.append_eq_nil_iff] at h
            exact ⟨harity, text, tp, words, rfl, isWord_of_wordsToShell h.1⟩
        | literal | call | binary | negate | group => simp [name?, Checked.report] at h
  · rw [toShell_misused hcallee harity] at h
    simp at h

end Calls

/-! ### Tests -/

/-- A test is reported like the condition it comes from. -/
theorem problems_testToShell (e : Expr π) :
    e.testToShell.problems = (e.toShell .condition).problems := by
  rw [testToShell, Checked.problems_bind]
  split <;> exact List.append_nil _

/-- A test is the expression of its condition without the brackets. -/
theorem value_testToShell (e : Expr π) :
    e.testToShell.value = (e.toShell .condition).value.unbracketed := by
  rw [testToShell, Checked.value_bind]
  cases (e.toShell .condition).value <;> rfl

/-! ### Expressions without problems -/

/-- How the shell expresses an expression that stands in a context. -/
inductive Expressed : Context → Expr π → Shell.Expr → Prop where
  | literal {context : Context} (kind : Literal) (text : String) (p : π) :
      Expressed context (.literal kind text p) (.text (kind.shellText text))
  | name {context : Context} (text : String) (p : π) :
      Expressed context (.name text p) (.value (Text.upper text) context.quotes)
  | command {context : Context} {form : CallForm} {callee : String} {cp p : π}
      {arguments : List (Expr π)} {shell : Expr π → Shell.Expr}
      (hcallee : Expansion.ofName? callee = none)
      (harguments : ∀ e ∈ arguments, Expressed .value e (shell e)) :
      Expressed context (.call form callee cp arguments p)
        (form.apply (.ofCall callee (arguments.map shell)))
  | expansion {context : Context} {form : CallForm} {callee text : String} {cp tp p : π}
      {words : List (Expr π)} {shell : Expr π → Shell.Expr} {x : Expansion}
      {expansion : Shell.Expr} (hcallee : Expansion.ofName? callee = some x)
      (hforms : ∀ e ∈ words, (shell e).isWord = true)
      (htakes : x.Takes (Text.upper text) (words.map shell) expansion)
      (hwords : ∀ e ∈ words, Expressed context e (shell e)) :
      Expressed context (.call form callee cp (.name text tp :: words) p) (form.apply expansion)
  | binary {context : Context} {op : Operator} {left right : Expr π} {p : π}
      {l r : Shell.Expr} (hleft : Expressed (context.inside op.isArithmetic) left l)
      (hright : Expressed (context.inside op.isArithmetic) right r) :
      Expressed context (.binary op left right p)
        ((context.wrapping op.isArithmetic).apply
          (.binary ((context.inside op.isArithmetic).spelling op) l r))
  | group {context : Context} {inner : Expr π} {p : π} {body : Shell.Expr}
      (hinner : Expressed (context.inside inner.isArithmetic) inner body) :
      Expressed context (.group inner p)
        ((context.wrapping inner.isArithmetic).apply (.group body))
  | number {context : Context} (text : String) (q p : π) :
      Expressed context (.negate (.literal .number text q) p) (.text ("-" ++ text))
  | negate {context : Context} {inner : Expr π} {p : π} {body : Shell.Expr}
      (hnumber : inner.number? = none)
      (hinner : Expressed (context.inside true) inner body) :
      Expressed context (.negate inner p)
        ((context.wrapping true).apply (.binary "-" (.text "0") body))

/-- What has a number is the literal of that number. -/
theorem eq_literal_of_number? {e : Expr π} {text : String} (h : e.number? = some text) :
    ∃ q, e = .literal .number text q := by
  unfold number? at h
  split at h
  next q =>
    rw [Option.some.inj h]
    exact ⟨q, rfl⟩
  next => contradiction

/-- If nothing is reported about an expression, it is expressed as the table says. -/
theorem expressed_of_problems {e : Expr π} {context : Context}
    (h : (e.toShell context).problems = []) : Expressed context e (e.toShell context).value := by
  induction e using Expr.induction generalizing context with
  | literal kind text p =>
      rw [toShell]
      exact .literal kind text p
  | name text p =>
      rw [toShell]
      exact .name text p
  | call form callee cp arguments p ih =>
      cases hcallee : Expansion.ofName? callee with
      | none =>
          rw [toShell_command hcallee] at h ⊢
          rw [List.flatMap_eq_nil_iff] at h
          exact .command hcallee fun e he => ih e he (h e he)
      | some x =>
          rcases exists_of_problems hcallee h with ⟨harity, text, tp, words, rfl, hforms⟩
          rcases toShell_expansion hcallee harity hforms form with ⟨expansion, htakes, heq⟩
          rw [heq] at h ⊢
          rw [List.flatMap_eq_nil_iff] at h
          exact .expansion hcallee hforms htakes fun e he =>
            ih e (List.mem_cons_of_mem _ he) (h e he)
  | binary op left right p ihleft ihright =>
      rw [toShell] at h ⊢
      simp only [Checked.problems_bind, List.append_eq_nil_iff] at h
      exact .binary (ihleft h.1) (ihright h.2.1)
  | negate inner p ih =>
      cases hnumber : inner.number? with
      | some text =>
          rcases eq_literal_of_number? hnumber with ⟨q, rfl⟩
          rw [toShell, hnumber]
          exact .number text q p
      | none =>
          rw [toShell, hnumber] at h ⊢
          simp only [Checked.problems_bind, List.append_eq_nil_iff] at h
          exact .negate hnumber (ih h.1)
  | group inner p ih =>
      rw [toShell] at h ⊢
      simp only [Checked.problems_bind, List.append_eq_nil_iff] at h
      exact .group (ih h.1)

end Expr

/-! ### Scripts without problems -/

/-- A script that the shell expresses has no problems, and its statements are expressed one by
one. -/
theorem Script.of_toShell {s : Script π} {shell : Shell.Script} (h : s.toShell = .ok shell) :
    (Stmt.allToShell s.statements).problems = [] ∧
      shell = ⟨(Stmt.allToShell s.statements).value⟩ := by
  rw [Script.toShell] at h
  split at h
  next hproblems => exact ⟨List.isEmpty_iff.mp hproblems, (Except.ok.inj h).symm⟩
  next => contradiction

end Shellward
