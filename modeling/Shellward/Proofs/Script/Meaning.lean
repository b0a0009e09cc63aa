import Shellward.Proofs.Grammar.Names

/-!
# The meaning of scripts

What a script does, whatever its values are.  An interpretation says what
literals, operators and calls stand for; variables are read from an environment.
Running a script records its assignments, the values of its expressions and the
branches that its conditionals take.

Main results:

- Theorem `Expr.eval_congr`: the value of an expression depends only on the
  variables it names.
- Theorem `Stmt.execAll_append`: statements run one part after the other.
-/

namespace Shellward

variable {π V : Type}

/-- What the parts of expressions stand for, over values of type `V`. -/
structure Interpretation (V : Type) where
  literal : Literal → String → V
  binary : Operator → V → V → V
  negate : V → V
  call : String → List V → V
  truthy : V → Bool

/-- The call `echo("-n", v)` has the value `v`. -/
def Interpretation.EchoesValue (I : Interpretation V) : Prop :=
  ∀ v, I.call "echo" [I.literal .string "\"-n\"", v] = v

/-- The values of the variables. -/
abbrev Env (V : Type) : Type :=
  String → V

/-- Give a variable another value. -/
def Env.set (env : Env V) (name : String) (value : V) : Env V := fun other =>
  if other = name then value else env other

@[simp]
theorem Env.set_self (env : Env V) (name : String) (value : V) :
    env.set name value name = value := by
  simp [Env.set]

theorem Env.set_of_ne {name other : String} (h : other ≠ name) (env : Env V) (value : V) :
    env.set name value other = env other := by
  simp [Env.set, h]

/-! ### Expressions -/

namespace Expr

variable (I : Interpretation V)

mutual

/-- The value of an expression.  A group has the value of what it contains, and a
call has the same value whatever its form. -/
def eval (env : Env V) : Expr π → V
  | .literal kind text _ => I.literal kind text
  | .name text _ => env text
  | .call _ callee _ arguments _ => I.call callee (evalAll env arguments)
  | .binary op left right _ => I.binary op (left.eval env) (right.eval env)
  | .negate inner _ => I.negate (inner.eval env)
  | .group inner _ => inner.eval env

/-- The values of several expressions. -/
def evalAll (env : Env V) : List (Expr π) → List V
  | [] => []
  | e :: es => e.eval env :: evalAll env es

end

mutual

/-- The value of an expression depends only on the variables it names. -/
theorem eval_congr {P : String → Prop} {env env' : Env V}
    (h : ∀ name, P name → env name = env' name) :
    ∀ e : Expr π, e.NamesIn P → e.eval I env = e.eval I env'
  | .literal .., _ => rfl
  | .name text _, he => h text he
  | .call _ callee _ arguments _, he => by
      rw [eval, eval, evalAll_congr h arguments he]
  | .binary _ left right _, he => by
      rw [eval, eval, eval_congr h left he.1, eval_congr h right he.2]
  | .negate inner _, he => by
      rw [eval, eval, eval_congr h inner he]
  | .group inner _, he => by
      rw [eval, eval, eval_congr h inner he]

/-- The values of expressions depend only on the variables that they read. -/
theorem evalAll_congr {P : String → Prop} {env env' : Env V}
    (h : ∀ name, P name → env name = env' name) :
    ∀ es : List (Expr π), NamesInAll P es → evalAll I env es = evalAll I env' es
  | [], _ => rfl
  | e :: es, hes => by
      rw [evalAll, evalAll, eval_congr h e hes.1, evalAll_congr h es hes.2]

end

end Expr

/-! ### Statements -/

/-- What a run records. -/
inductive Event (V : Type) where
  /-- A variable was given a value. -/
  | assigned (name : String) (value : V)
  /-- An expression on a line of its own had a value. -/
  | ran (value : V)
  /-- A conditional took a branch, counted from zero; if none was taken, the count
  is the number of branches. -/
  | took (branch : Nat)

/-- A run of statements: what it recorded, and the values of the variables after it. -/
structure Run (V : Type) where
  events : List (Event V)
  env : Env V

/-- A run with an event before it. -/
def Run.after (event : Event V) (r : Run V) : Run V :=
  ⟨event :: r.events, r.env⟩

section

variable (I : Interpretation V)

mutual

/-- Run a statement.  A conditional runs the first branch whose test is truthy. -/
def Stmt.exec (env : Env V) : Stmt π → Run V
  | .comment .. | .blank _ => ⟨[], env⟩
  | .assign target _ value _ =>
      ⟨[.assigned target (value.eval I env)], env.set target (value.eval I env)⟩
  | .run value _ => ⟨[.ran (value.eval I env)], env⟩
  | .cond test body _ alternative _ =>
      if I.truthy (test.eval I env) then (Stmt.execAll env body).after (.took 0)
      else alternative.exec env 1

/-- Run statements in order. -/
def Stmt.execAll (env : Env V) : List (Stmt π) → Run V
  | [] => ⟨[], env⟩
  | s :: ss =>
      let first := s.exec env
      let rest := Stmt.execAll first.env ss
      ⟨first.events ++ rest.events, rest.env⟩

/-- Run what follows the first body of a conditional, from a branch on. -/
def Else.exec (env : Env V) (branch : Nat) : Else π → Run V
  | .absent => ⟨[.took branch], env⟩
  | .block body _ => (Stmt.execAll env body).after (.took branch)
  | .elseIf test body _ rest =>
      if I.truthy (test.eval I env) then (Stmt.execAll env body).after (.took branch)
      else rest.exec env (branch + 1)

end

/-- Run a script. -/
def Script.exec (env : Env V) (s : Script π) : Run V :=
  Stmt.execAll I env s.statements

/-- Statements are run one after the other, each from where the one before leaves the
variables. -/
theorem Stmt.execAll_cons (env : Env V) (s : Stmt π) (ss : List (Stmt π)) :
    Stmt.execAll I env (s :: ss) =
      ⟨(s.exec I env).events ++ (Stmt.execAll I (s.exec I env).env ss).events,
        (Stmt.execAll I (s.exec I env).env ss).env⟩ := by
  rw [Stmt.execAll]

/-- Statements run one part after the other. -/
theorem Stmt.execAll_append (env : Env V) (ss ts : List (Stmt π)) :
    Stmt.execAll I env (ss ++ ts) =
      ⟨(Stmt.execAll I env ss).events ++ (Stmt.execAll I (Stmt.execAll I env ss).env ts).events,
        (Stmt.execAll I (Stmt.execAll I env ss).env ts).env⟩ := by
  induction ss generalizing env with
  | nil => simp [Stmt.execAll]
  | cons s ss ih => simp [Stmt.execAll_cons, ih]

end

end Shellward
