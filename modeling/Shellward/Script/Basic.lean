import Shellward.Operator

/-!
# Scripts

The tree of a script: expressions, statements and the alternatives of a
conditional.  Every node carries a place of type `π`.  Parsing gives trees over
spans; replacing the places of a tree by others is `map`, and a tree over
places that are all equal is a tree without places.

Main results:

- Theorems `Expr.map_id` and `Expr.map_map`: places are replaced functorially.
- Theorem `Expr.place_map`: the place of a replaced tree is the replaced place.
- Theorems `Stmt.map_id` and `Stmt.map_map`: the same for statements.
-/

namespace Shellward

/-- The kinds of literal. -/
inductive Literal where
  | string
  | pattern
  | atom
  | number
deriving DecidableEq, Repr

/-- How a call stands in a script. -/
inductive CallForm where
  /-- A call as it is written. -/
  | plain
  /-- A call whose output is used as a value, inside `depth` expressions. -/
  | nested (depth : Nat)
deriving DecidableEq, Repr

/-- Expressions; the text of a literal includes its quotes or its colon. -/
inductive Expr (π : Type) where
  | literal (kind : Literal) (text : String) (place : π)
  | name (text : String) (place : π)
  | call (form : CallForm) (callee : String) (calleePlace : π) (arguments : List (Expr π))
      (place : π)
  | binary (operator : Operator) (left right : Expr π) (place : π)
  | negate (inner : Expr π) (place : π)
  | group (inner : Expr π) (place : π)
deriving Repr

mutual

/-- Statements; a line with no statement on it is `blank`. -/
inductive Stmt (π : Type) where
  | comment (text : String) (place : π)
  | blank (place : π)
  | assign (target : String) (targetPlace : π) (value : Expr π) (place : π)
  | run (value : Expr π) (place : π)
  | cond (test : Expr π) (body : List (Stmt π)) (bodyPlace : π) (alternative : Else π) (place : π)

/-- What follows the body of a conditional. -/
inductive Else (π : Type) where
  | absent
  | block (body : List (Stmt π)) (bodyPlace : π)
  | elseIf (test : Expr π) (body : List (Stmt π)) (bodyPlace : π) (rest : Else π)

end

/-- A script is a list of statements. -/
structure Script (π : Type) where
  statements : List (Stmt π)

variable {π κ ρ : Type}

/-! ### Expressions -/

namespace Expr

/-- The place of an expression. -/
def place : Expr π → π
  | .literal _ _ p | .name _ p | .call _ _ _ _ p | .binary _ _ _ p | .negate _ p | .group _ p => p

mutual

/-- Replace the places of an expression. -/
def map (f : π → κ) : Expr π → Expr κ
  | .literal kind text p => .literal kind text (f p)
  | .name text p => .name text (f p)
  | .call form callee cp arguments p => .call form callee (f cp) (mapAll f arguments) (f p)
  | .binary op left right p => .binary op (left.map f) (right.map f) (f p)
  | .negate inner p => .negate (inner.map f) (f p)
  | .group inner p => .group (inner.map f) (f p)

/-- Replace the places of several expressions. -/
def mapAll (f : π → κ) : List (Expr π) → List (Expr κ)
  | [] => []
  | e :: es => e.map f :: mapAll f es

end

/-- Whether an expression computes a number by an operator. -/
def isArithmetic : Expr π → Bool
  | .binary op _ _ _ => op.isArithmetic
  | .group inner _ => inner.isArithmetic
  | .negate _ _ => true
  | _ => false

/-- Places are replaced in each expression of a list. -/
theorem mapAll_eq_map (f : π → κ) (es : List (Expr π)) : mapAll f es = List.map (map f) es := by
  induction es with
  | nil => simp [mapAll]
  | cons e es ih => simp [mapAll, ih]

/-- The place of an expression is replaced like all others. -/
@[simp]
theorem place_map (f : π → κ) (e : Expr π) : (e.map f).place = f e.place := by
  cases e <;> simp [map, place]

mutual

/-- Nothing changes if every place is replaced by itself. -/
@[simp]
theorem map_id : ∀ e : Expr π, e.map id = e
  | .literal .. | .name .. => by simp [map]
  | .call _ _ _ arguments _ => by simp [map, mapAll_id arguments]
  | .binary _ left right _ => by simp [map, map_id left, map_id right]
  | .negate inner _ | .group inner _ => by simp [map, map_id inner]

@[simp]
theorem mapAll_id : ∀ es : List (Expr π), mapAll id es = es
  | [] => by simp [mapAll]
  | e :: es => by simp [mapAll, map_id e, mapAll_id es]

end

mutual

/-- Replacing places twice is replacing them once. -/
theorem map_map (f : π → κ) (g : κ → ρ) : ∀ e : Expr π, (e.map f).map g = e.map (g ∘ f)
  | .literal .. | .name .. => by simp [map]
  | .call _ _ _ arguments _ => by simp [map, mapAll_mapAll f g arguments]
  | .binary _ left right _ => by simp [map, map_map f g left, map_map f g right]
  | .negate inner _ | .group inner _ => by simp [map, map_map f g inner]

theorem mapAll_mapAll (f : π → κ) (g : κ → ρ) :
    ∀ es : List (Expr π), mapAll g (mapAll f es) = mapAll (g ∘ f) es
  | [] => by simp [mapAll]
  | e :: es => by simp [mapAll, map_map f g e, mapAll_mapAll f g es]

end

end Expr

/-! ### Statements -/

mutual

/-- Replace the places of a statement. -/
def Stmt.map (f : π → κ) : Stmt π → Stmt κ
  | .comment text p => .comment text (f p)
  | .blank p => .blank (f p)
  | .assign target tp value p => .assign target (f tp) (value.map f) (f p)
  | .run value p => .run (value.map f) (f p)
  | .cond test body bp alternative p =>
      .cond (test.map f) (Stmt.mapAll f body) (f bp) (alternative.map f) (f p)

/-- Replace the places of several statements. -/
def Stmt.mapAll (f : π → κ) : List (Stmt π) → List (Stmt κ)
  | [] => []
  | s :: ss => s.map f :: Stmt.mapAll f ss

/-- Replace the places of what follows a conditional. -/
def Else.map (f : π → κ) : Else π → Else κ
  | .absent => .absent
  | .block body bp => .block (Stmt.mapAll f body) (f bp)
  | .elseIf test body bp rest => .elseIf (test.map f) (Stmt.mapAll f body) (f bp) (rest.map f)

end

/-- The place of a statement. -/
def Stmt.place : Stmt π → π
  | .comment _ p | .blank p | .assign _ _ _ p | .run _ p | .cond _ _ _ _ p => p

/-- The place of the last block, where `first` is that of the block before. -/
def Else.lastPlace (first : π) : Else π → π
  | .absent => first
  | .block _ p => p
  | .elseIf _ _ p rest => rest.lastPlace p

/-- The alternatives that try conditions in order and end in `last`. -/
def Else.ofBranches (last : Else π) : List (Expr π × List (Stmt π) × π) → Else π
  | [] => last
  | (test, body, p) :: rest => .elseIf test body p (Else.ofBranches last rest)

namespace Script

/-- Replace the places of a script. -/
def map (f : π → κ) (s : Script π) : Script κ :=
  ⟨Stmt.mapAll f s.statements⟩

/-- Replace every place by the default one. -/
def erase [Inhabited π] (s : Script π) : Script π :=
  s.map fun _ => default

end Script

/-- Places are replaced in each statement of a list. -/
theorem Stmt.mapAll_eq_map (f : π → κ) (ss : List (Stmt π)) :
    Stmt.mapAll f ss = List.map (Stmt.map f) ss := by
  induction ss with
  | nil => simp [Stmt.mapAll]
  | cons s ss ih => simp [Stmt.mapAll, ih]

mutual

/-- Nothing changes in a statement if every place is replaced by itself. -/
@[simp]
theorem Stmt.map_id : ∀ s : Stmt π, s.map id = s
  | .comment .. | .blank _ => by simp [Stmt.map]
  | .assign .. | .run .. => by simp [Stmt.map]
  | .cond _ body _ alternative _ => by
      simp [Stmt.map, Stmt.mapAll_id body, Else.map_id alternative]

@[simp]
theorem Stmt.mapAll_id : ∀ ss : List (Stmt π), Stmt.mapAll id ss = ss
  | [] => by simp [Stmt.mapAll]
  | s :: ss => by simp [Stmt.mapAll, Stmt.map_id s, Stmt.mapAll_id ss]

@[simp]
theorem Else.map_id : ∀ a : Else π, a.map id = a
  | .absent => by simp [Else.map]
  | .block body _ => by simp [Else.map, Stmt.mapAll_id body]
  | .elseIf _ body _ rest => by simp [Else.map, Stmt.mapAll_id body, Else.map_id rest]

end

mutual

/-- Replacing the places of a statement twice is replacing them once. -/
theorem Stmt.map_map (f : π → κ) (g : κ → ρ) : ∀ s : Stmt π, (s.map f).map g = s.map (g ∘ f)
  | .comment .. | .blank _ => by simp [Stmt.map]
  | .assign .. | .run .. => by simp [Stmt.map, Expr.map_map]
  | .cond _ body _ alternative _ => by
      simp [Stmt.map, Expr.map_map, Stmt.mapAll_mapAll f g body, Else.map_map f g alternative]

theorem Stmt.mapAll_mapAll (f : π → κ) (g : κ → ρ) :
    ∀ ss : List (Stmt π), Stmt.mapAll g (Stmt.mapAll f ss) = Stmt.mapAll (g ∘ f) ss
  | [] => by simp [Stmt.mapAll]
  | s :: ss => by simp [Stmt.mapAll, Stmt.map_map f g s, Stmt.mapAll_mapAll f g ss]

theorem Else.map_map (f : π → κ) (g : κ → ρ) : ∀ a : Else π, (a.map f).map g = a.map (g ∘ f)
  | .absent => by simp [Else.map]
  | .block body _ => by simp [Else.map, Stmt.mapAll_mapAll f g body]
  | .elseIf _ body _ rest => by
      simp [Else.map, Expr.map_map, Stmt.mapAll_mapAll f g body, Else.map_map f g rest]

end

end Shellward
