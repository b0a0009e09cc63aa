import Shellward.Proofs.Grammar.Scripts

/-!
# The parts of scripts

All expressions and all statements of a script, at any depth, in the order in which
they are read.

Main results:

- Theorem `Expr.induction`: what passes from the parts of an expression to the
  expression holds of every expression.
- Theorem `Script.plain_of_parse`: in a script that is read, every call stands as it is
  written.
-/

namespace Shellward

variable {π : Type}

/-! ### Expressions -/

namespace Expr

/-- What passes from the parts of an expression to the expression holds of every
expression. -/
@[elab_as_elim]
theorem induction {P : Expr π → Prop}
    (literal : ∀ kind text p, P (.literal kind text p))
    (name : ∀ text p, P (.name text p))
    (call : ∀ form callee cp arguments p, (∀ e ∈ arguments, P e) →
      P (.call form callee cp arguments p))
    (binary : ∀ op left right p, P left → P right → P (.binary op left right p))
    (negate : ∀ inner p, P inner → P (.negate inner p))
    (group : ∀ inner p, P inner → P (.group inner p)) (e : Expr π) : P e := by
  apply @Expr.rec π P (fun arguments => ∀ e ∈ arguments, P e) literal name call binary negate group
  · intro e he
    exact absurd he List.not_mem_nil
  · intro first rest hfirst hrest e he
    rcases List.mem_cons.mp he with rfl | he
    · exact hfirst
    · exact hrest e he

mutual

/-- An expression and the expressions in it, each before its own parts. -/
def parts : Expr π → List (Expr π)
  | .literal kind text p => [.literal kind text p]
  | .name text p => [.name text p]
  | .call form callee cp arguments p => .call form callee cp arguments p :: allParts arguments
  | .binary op left right p => .binary op left right p :: (left.parts ++ right.parts)
  | .negate inner p => .negate inner p :: inner.parts
  | .group inner p => .group inner p :: inner.parts

/-- The expressions in several expressions. -/
def allParts : List (Expr π) → List (Expr π)
  | [] => []
  | e :: es => e.parts ++ allParts es

end

/-- An expression is among the expressions in it. -/
theorem mem_parts_self (e : Expr π) : e ∈ e.parts := by
  cases e <;> simp [parts]

/-- The expressions in several expressions are those in each, in order. -/
theorem allParts_eq (es : List (Expr π)) : allParts es = es.flatMap parts := by
  induction es with
  | nil => rw [allParts, List.flatMap_nil]
  | cons e es ih => rw [allParts, List.flatMap_cons, ih]

/-- An expression is in several expressions exactly if it is in one of them. -/
theorem mem_allParts {e : Expr π} {es : List (Expr π)} :
    e ∈ allParts es ↔ ∃ e' ∈ es, e ∈ e'.parts := by
  rw [allParts_eq, List.mem_flatMap]

/-- Whether an expression is a call whose output is used as a value. -/
def isNested : Expr π → Bool
  | .call (.nested _) .. => true
  | _ => false

end Expr

/-! ### Statements -/

mutual

/-- The expressions in a statement, at any depth. -/
def Stmt.expressions : Stmt π → List (Expr π)
  | .comment .. | .blank _ => []
  | .assign _ _ value _ | .run value _ => value.parts
  | .cond test body _ alternative _ =>
      test.parts ++ (Stmt.allExpressions body ++ alternative.expressions)

/-- The expressions in several statements. -/
def Stmt.allExpressions : List (Stmt π) → List (Expr π)
  | [] => []
  | s :: ss => s.expressions ++ Stmt.allExpressions ss

/-- The expressions in what follows the body of a conditional. -/
def Else.expressions : Else π → List (Expr π)
  | .absent => []
  | .block body _ => Stmt.allExpressions body
  | .elseIf test body _ rest => test.parts ++ (Stmt.allExpressions body ++ rest.expressions)

end

mutual

/-- A statement and the statements in it, each before its own parts. -/
def Stmt.parts : Stmt π → List (Stmt π)
  | .comment text p => [.comment text p]
  | .blank p => [.blank p]
  | .assign target tp value p => [.assign target tp value p]
  | .run value p => [.run value p]
  | .cond test body bp alternative p =>
      .cond test body bp alternative p :: (Stmt.allParts body ++ alternative.parts)

/-- The statements in several statements. -/
def Stmt.allParts : List (Stmt π) → List (Stmt π)
  | [] => []
  | s :: ss => s.parts ++ Stmt.allParts ss

/-- The statements in what follows the body of a conditional. -/
def Else.parts : Else π → List (Stmt π)
  | .absent => []
  | .block body _ => Stmt.allParts body
  | .elseIf _ body _ rest => Stmt.allParts body ++ rest.parts

end

/-- All expressions in several statements have a property exactly if those in each have it. -/
theorem Stmt.forall_mem_allExpressions {P : Expr π → Prop} {ss : List (Stmt π)} :
    (∀ e ∈ Stmt.allExpressions ss, P e) ↔ ∀ s ∈ ss, ∀ e ∈ s.expressions, P e := by
  induction ss with
  | nil => simp [Stmt.allExpressions]
  | cons s ss ih =>
      rw [Stmt.allExpressions, List.forall_mem_append, ih, List.forall_mem_cons]

mutual

/-- The expressions in a part of a statement are in the statement. -/
theorem Stmt.expressions_subset : ∀ {s part : Stmt π}, part ∈ s.parts →
    part.expressions ⊆ s.expressions
  | .comment .., _, h | .blank _, _, h | .assign .., _, h | .run .., _, h => by
      rw [List.mem_singleton.mp h]
      exact List.Subset.refl _
  | .cond test body _ alternative _, part, h => by
      rcases List.mem_cons.mp h with rfl | h
      · exact List.Subset.refl _
      · apply List.subset_append_of_subset_right
        rcases List.mem_append.mp h with h | h
        · exact List.subset_append_of_subset_left _ (Stmt.allExpressions_subset h)
        · exact List.subset_append_of_subset_right _ (Else.expressions_subset h)

/-- The expressions in a statement inside several ones are among those in all of them. -/
theorem Stmt.allExpressions_subset : ∀ {ss : List (Stmt π)} {part : Stmt π},
    part ∈ Stmt.allParts ss → part.expressions ⊆ Stmt.allExpressions ss
  | [], _, h => absurd h List.not_mem_nil
  | s :: ss, part, h => by
      rcases List.mem_append.mp h with h | h
      · exact List.subset_append_of_subset_left _ (Stmt.expressions_subset h)
      · exact List.subset_append_of_subset_right _ (Stmt.allExpressions_subset h)

/-- The expressions in a statement after the body of a conditional are among those that stand
there. -/
theorem Else.expressions_subset : ∀ {a : Else π} {part : Stmt π}, part ∈ a.parts →
    part.expressions ⊆ a.expressions
  | .absent, _, h => absurd h List.not_mem_nil
  | .block body _, part, h => Stmt.allExpressions_subset h
  | .elseIf test body _ rest, part, h => by
      apply List.subset_append_of_subset_right
      rcases List.mem_append.mp h with h | h
      · exact List.subset_append_of_subset_left _ (Stmt.allExpressions_subset h)
      · exact List.subset_append_of_subset_right _ (Else.expressions_subset h)

end

namespace Script

/-- The expressions in a script, at any depth. -/
def expressions (s : Script π) : List (Expr π) :=
  Stmt.allExpressions s.statements

/-- The statements in a script, at any depth. -/
def allStatements (s : Script π) : List (Stmt π) :=
  Stmt.allParts s.statements

end Script

/-! ### Scripts that are read -/

/-- Every call stands as it is written. -/
abbrev Plain (es : List (Expr π)) : Prop :=
  ∀ e ∈ es, e.isNested = false

theorem plain_cons {e : Expr π} {es : List (Expr π)} (he : e.isNested = false) (hes : Plain es) :
    Plain (e :: es) :=
  List.forall_mem_cons.mpr ⟨he, hes⟩

theorem plain_append {es es' : List (Expr π)} (hes : Plain es) (hes' : Plain es') :
    Plain (es ++ es') :=
  List.forall_mem_append.mpr ⟨hes, hes'⟩

theorem plain_nil : Plain ([] : List (Expr π)) :=
  List.forall_mem_nil _

mutual

/-- In an expression that is read, every call stands as it is written. -/
theorem Expr.Derives.plain : ∀ {level : Level} {input rest : List Token} {e : Expr Span},
    Expr.Derives level input e rest → Plain e.parts
  | _, _, _, _, .literal _ _ | _, _, _, _, .name _ => plain_cons rfl plain_nil
  | _, _, _, _, .group _ h _ | _, _, _, _, .negate _ h => plain_cons rfl h.plain
  | _, _, _, _, .call _ _ _ h => plain_cons rfl h.plain
  | _, _, _, _, .binary _ hleft _ hright => plain_cons rfl (plain_append hleft.plain hright.plain)
  | _, _, _, _, .tighter h => h.plain

/-- In arguments that are read, every call stands as it is written. -/
theorem Expr.DerivesArguments.plain : ∀ {input rest : List Token} {es : List (Expr Span)}
    {close : Token}, Expr.DerivesArguments input es close rest → Plain (Expr.allParts es)
  | _, _, _, _, .none _ => plain_nil
  | _, _, _, _, .last h _ _ => plain_append h.plain plain_nil
  | _, _, _, _, .more h _ _ _ hmore => plain_append h.plain hmore.plain

end

mutual

/-- In a statement that is read, every call stands as it is written. -/
theorem Stmt.Derives.plain : ∀ {input rest : List Token} {s : Stmt Span},
    Stmt.Derives input s rest → Plain s.expressions
  | _, _, _, .comment _ _ | _, _, _, .blank _ => plain_nil
  | _, _, _, .assign _ _ _ h _ | _, _, _, .run h _ => h.plain
  | _, _, _, .cond _ htest hbody halternative _ =>
      plain_append htest.plain (plain_append hbody.plain halternative.plain)

/-- In statements that are read, every call stands as it is written. -/
theorem Stmt.DerivesAll.plain : ∀ {input rest : List Token} {ss : List (Stmt Span)},
    Stmt.DerivesAll input ss rest → Plain (Stmt.allExpressions ss)
  | _, _, _, .nil => plain_nil
  | _, _, _, .cons h hmore => plain_append h.plain hmore.plain

/-- In a block that is read, every call stands as it is written. -/
theorem Stmt.DerivesBlock.plain : ∀ {input rest : List Token} {body : List (Stmt Span)}
    {place : Span}, Stmt.DerivesBlock input body place rest → Plain (Stmt.allExpressions body)
  | _, _, _, _, .braces _ _ h _ => h.plain

/-- In what is read after the body of a conditional, every call stands as it is written. -/
theorem Else.Derives.plain : ∀ {input rest : List Token} {a : Else Span},
    Else.Derives input a rest → Plain a.expressions
  | _, _, _, .absent => plain_nil
  | _, _, _, .block _ h => h.plain
  | _, _, _, .elseIf _ _ htest hbody hrest =>
      plain_append htest.plain (plain_append hbody.plain hrest.plain)

end

/-- In a script that is read, every call stands as it is written. -/
theorem Script.plain_of_parse {source : Source} {s : Script Span}
    (h : Script.parse source = .ok s) : Plain s.expressions := by
  rcases (read_eq_iff.mp (parse_eq_ok_iff.mp h)).1 with ⟨_, _, hstatements⟩
  exact hstatements.plain

end Shellward
