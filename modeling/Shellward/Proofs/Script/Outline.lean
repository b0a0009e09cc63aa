import Shellward.Proofs.Script.Places

/-!
# The outline of a script

An outline keeps of a script only where its parts stand and which part stands inside which:
operands and arguments inside expressions, the names of calls and assignments inside those,
tests and blocks inside conditionals, and statements inside blocks.  Every place of the script
is in its outline, and since compiling carries places along, so is every place of a problem
that compiling reports.

Main results:

- Theorem `Script.map_eq_self`: a script in whose outline no place is moved is not changed.
- Theorem `Script.exists_node_of_toShell`: what the shell cannot express is reported at a place
  of the outline.
-/

namespace Shellward

variable {π : Type}

/-- A place and the outlines of the parts inside. -/
inductive Outline (π : Type) where
  | node (place : π) (parts : List (Outline π))

namespace Outline

def place : Outline π → π
  | .node p _ => p

def parts : Outline π → List (Outline π)
  | .node _ ps => ps

mutual

/-- An outline and all outlines inside it. -/
def nodes : Outline π → List (Outline π)
  | .node p ps => .node p ps :: allNodes ps

/-- All outlines inside several ones. -/
def allNodes : List (Outline π) → List (Outline π)
  | [] => []
  | o :: os => o.nodes ++ allNodes os

end

/-- A function does not move any place of an outline. -/
def Fixes (f : π → π) (os : List (Outline π)) : Prop :=
  ∀ o ∈ os, f o.place = o.place

/-- A function moves no place of an outline exactly if it moves neither its own place nor one
inside. -/
theorem fixes_nodes {f : π → π} {p : π} {ps : List (Outline π)} :
    Fixes f (Outline.node p ps).nodes ↔ f p = p ∧ Fixes f (allNodes ps) := by
  rw [nodes]
  exact List.forall_mem_cons

/-- A function moves no place of several outlines exactly if it moves none of the first or of the
others. -/
theorem fixes_cons {f : π → π} {o : Outline π} {os : List (Outline π)} :
    Fixes f (allNodes (o :: os)) ↔ Fixes f o.nodes ∧ Fixes f (allNodes os) := by
  rw [allNodes]
  exact List.forall_mem_append

end Outline

open Outline (node allNodes Fixes fixes_nodes fixes_cons)

/-! ### The outlines of trees -/

mutual

/-- The outline of an expression. -/
def Expr.outline : Expr π → Outline π
  | .literal _ _ p | .name _ p => node p []
  | .call _ _ cp arguments p => node p (node cp [] :: Expr.outlines arguments)
  | .binary _ left right p => node p [left.outline, right.outline]
  | .negate inner p | .group inner p => node p [inner.outline]

def Expr.outlines : List (Expr π) → List (Outline π)
  | [] => []
  | e :: es => e.outline :: Expr.outlines es

end

mutual

/-- The outline of a statement. -/
def Stmt.outline : Stmt π → Outline π
  | .comment _ p | .blank p => node p []
  | .assign _ tp value p => node p [node tp [], value.outline]
  | .run value p => node p [value.outline]
  | .cond test body bp alternative p =>
      node p (test.outline :: node bp (Stmt.outlines body) :: alternative.outlines)

def Stmt.outlines : List (Stmt π) → List (Outline π)
  | [] => []
  | s :: ss => s.outline :: Stmt.outlines ss

/-- The outlines of the parts that follow the first block of a conditional. -/
def Else.outlines : Else π → List (Outline π)
  | .absent => []
  | .block body bp => [node bp (Stmt.outlines body)]
  | .elseIf test body bp rest => test.outline :: node bp (Stmt.outlines body) :: rest.outlines

end

/-- The outlines of the statements of a script. -/
def Script.outlines (s : Script π) : List (Outline π) :=
  Stmt.outlines s.statements

/-! ### Functions that move no place -/

section Fixed

variable {f : π → π}

mutual

/-- A function that moves no place of an expression leaves the expression as it is. -/
theorem Expr.map_eq_self : ∀ {e : Expr π}, Fixes f e.outline.nodes → e.map f = e
  | .literal .., h | .name .., h => by
      rw [Expr.outline, fixes_nodes] at h
      rw [Expr.map, h.1]
  | .call _ _ cp arguments p, h => by
      rw [Expr.outline, fixes_nodes, fixes_cons, fixes_nodes] at h
      rw [Expr.map, h.1, h.2.1.1, Expr.mapAll_eq_self h.2.2]
  | .binary _ left right p, h => by
      rw [Expr.outline, fixes_nodes, fixes_cons, fixes_cons] at h
      rw [Expr.map, h.1, Expr.map_eq_self h.2.1, Expr.map_eq_self h.2.2.1]
  | .negate inner p, h | .group inner p, h => by
      rw [Expr.outline, fixes_nodes, fixes_cons] at h
      rw [Expr.map, h.1, Expr.map_eq_self h.2.1]

/-- A function that moves no place of several expressions leaves them as they are. -/
theorem Expr.mapAll_eq_self : ∀ {es : List (Expr π)}, Fixes f (allNodes (Expr.outlines es)) →
    Expr.mapAll f es = es
  | [], _ => by rw [Expr.mapAll]
  | e :: es, h => by
      rw [Expr.outlines, fixes_cons] at h
      rw [Expr.mapAll, Expr.map_eq_self h.1, Expr.mapAll_eq_self h.2]

end

mutual

/-- A function that moves no place of a statement leaves the statement as it is. -/
theorem Stmt.map_eq_self : ∀ {s : Stmt π}, Fixes f s.outline.nodes → s.map f = s
  | .comment .., h | .blank _, h => by
      rw [Stmt.outline, fixes_nodes] at h
      rw [Stmt.map, h.1]
  | .assign _ tp value p, h => by
      rw [Stmt.outline, fixes_nodes, fixes_cons, fixes_nodes, fixes_cons] at h
      rw [Stmt.map, h.1, h.2.1.1, Expr.map_eq_self h.2.2.1]
  | .run value p, h => by
      rw [Stmt.outline, fixes_nodes, fixes_cons] at h
      rw [Stmt.map, h.1, Expr.map_eq_self h.2.1]
  | .cond test body bp alternative p, h => by
      rw [Stmt.outline, fixes_nodes, fixes_cons, fixes_cons, fixes_nodes] at h
      rw [Stmt.map, h.1, Expr.map_eq_self h.2.1, h.2.2.1.1, Stmt.mapAll_eq_self h.2.2.1.2,
        Else.map_eq_self h.2.2.2]

/-- A function that moves no place of several statements leaves them as they are. -/
theorem Stmt.mapAll_eq_self : ∀ {ss : List (Stmt π)}, Fixes f (allNodes (Stmt.outlines ss)) →
    Stmt.mapAll f ss = ss
  | [], _ => by rw [Stmt.mapAll]
  | s :: ss, h => by
      rw [Stmt.outlines, fixes_cons] at h
      rw [Stmt.mapAll, Stmt.map_eq_self h.1, Stmt.mapAll_eq_self h.2]

/-- A function that moves no place after the body of a conditional leaves what stands there as it
is. -/
theorem Else.map_eq_self : ∀ {a : Else π}, Fixes f (allNodes a.outlines) → a.map f = a
  | .absent, _ => by rw [Else.map]
  | .block body bp, h => by
      rw [Else.outlines, fixes_cons, fixes_nodes] at h
      rw [Else.map, h.1.1, Stmt.mapAll_eq_self h.1.2]
  | .elseIf test body bp rest, h => by
      rw [Else.outlines, fixes_cons, fixes_cons, fixes_nodes] at h
      rw [Else.map, Expr.map_eq_self h.1, h.2.1.1, Stmt.mapAll_eq_self h.2.1.2,
        Else.map_eq_self h.2.2]

end

/-- A script in whose outline no place is moved is not changed. -/
theorem Script.map_eq_self {s : Script π} (h : Fixes f (allNodes s.outlines)) : s.map f = s := by
  rw [Script.map, Stmt.mapAll_eq_self h]

end Fixed

/-! ### Places of problems -/

/-- What the shell cannot express of a script, after it is flattened, is reported at a place
of its outline. -/
theorem Script.exists_node_of_toShell {s : Script Span} {problems : List (Problem Span)}
    (h : s.flatten.toShell = .error problems) :
    ∀ q ∈ problems, ∃ o ∈ allNodes s.outlines, o.place = q.place := by
  -- A function that moves exactly the places outside the outline moves no place of a problem,
  -- because compiling cannot tell the script from the same script with its places moved.
  let f : Span → Span := fun p =>
    if p ∈ (allNodes s.outlines).map Outline.place then p else ⟨p.start + 1, p.stop⟩
  have hmap : s.map f = s :=
    map_eq_self fun o ho => if_pos (List.mem_map_of_mem ho)
  have hflatten := s.flatten_map f
  rw [hmap] at hflatten
  have hproblems := s.flatten.toShell_map f
  rw [← hflatten, h] at hproblems
  have hsame : problems.map (Problem.map f) = problems.map id := by
    rw [List.map_id]
    exact (Except.error.inj hproblems).symm
  intro q hq
  have hplace := congrArg Problem.place (List.map_inj_left.mp hsame q hq)
  by_cases hmem : q.place ∈ (allNodes s.outlines).map Outline.place
  · exact List.mem_map.mp hmem
  · have hmoved : f q.place = ⟨q.place.start + 1, q.place.stop⟩ := if_neg hmem
    have hstart := congrArg Span.start (hmoved.symm.trans hplace)
    simp at hstart

end Shellward
