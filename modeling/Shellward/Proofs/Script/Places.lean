import Shellward.Compile
import Shellward.Proofs.Script.Renaming

/-!
# Places have no part in compiling

Flattening a script and expressing it in the shell carry its places along without looking
at them.  So a script whose places are replaced is flattened to the same script with its
places replaced, and has the same shell script, or the same problems at other places.

Main results:

- Theorem `Script.flatten_map`: flattening a script with replaced places is replacing the
  places of the flattened script.
- Theorem `Script.toShell_map`: the shell script is the same, and so are the problems
  apart from their places.
- Theorems `compile_map` and `format_map`: sources that are read alike but for places are
  compiled and formatted alike.
-/

namespace Shellward

variable {π κ α β : Type} (f : π → κ)

/-! ### Flattening -/

/-- Flattening statements with replaced places is replacing the places of the flattened
statements. -/
theorem Stmt.flattenAll_map (n : Nat) (ss : List (Stmt π)) :
    Stmt.flattenAll n (Stmt.mapAll f ss) =
      (Stmt.mapAll f (Stmt.flattenAll n ss).1, (Stmt.flattenAll n ss).2) := by
  have hflatten := Stmt.flattenAll_bimap (f := f) (g := id) (n := 0) (fun _ => rfl) n ss
  rwa [Nat.add_zero, Stmt.bimapAll_id, Stmt.bimapAll_id] at hflatten

/-- Flattening a script with replaced places is replacing the places of the flattened script. -/
theorem Script.flatten_map (s : Script π) : (s.map f).flatten = s.flatten.map f := by
  simp only [Script.map, Script.flatten, Script.flattenFrom, Stmt.flattenAll_map]

/-! ### Expressing in the shell -/

namespace Checked

/-- The same value, with its problems moved to other places. -/
def relocate (c : Checked π α) : Checked κ α :=
  ⟨c.value, c.problems.map (Problem.map f)⟩

@[simp]
theorem relocate_pure (a : α) : (pure a : Checked π α).relocate f = pure a :=
  rfl

/-- A problem that is reported is reported at the moved place. -/
@[simp]
theorem relocate_report (fault : Fault) (place : π) (value : α) :
    (report fault place value).relocate f = report fault (f place) value :=
  rfl

/-- The problems of a sequence are moved with those of its parts. -/
@[simp]
theorem relocate_bind (c : Checked π α) (g : α → Checked π β) :
    (c >>= g).relocate f = (c.relocate f >>= fun a => (g a).relocate f) := by
  simp [relocate, bind]

end Checked

/-- A builtin is expressed alike wherever it stands, with its problems moved. -/
theorem Expansion.toShell_relocate (callee name : String) (place : π) (x : Expansion)
    (words : Option (List Shell.Expr)) :
    (x.toShell callee name place words).relocate f = x.toShell callee name (f place) words := by
  cases words with
  | none => rfl
  | some words =>
      simp only [Expansion.toShell]
      split <;> rfl

namespace Expr

theorem length_mapAll (es : List (Expr π)) : (mapAll f es).length = es.length := by
  rw [mapAll_eq_map, List.length_map]

theorem name?_map (e : Expr π) : (e.map f).name? = e.name? := by
  cases e <;> simp [map, name?]

theorem number?_map (e : Expr π) : (e.map f).number? = e.number? := by
  cases e with
  | literal kind text p => cases kind <;> simp [map, number?]
  | _ => simp [map, number?]

theorem expansionName?_map (e : Expr π) : (e.map f).expansionName? = e.expansionName? := by
  cases e with
  | call form callee cp arguments p => cases form <;> simp [map, expansionName?]
  | _ => simp [map, expansionName?]

/-- Whether an expression computes a number does not depend on its places. -/
theorem isArithmetic_map : ∀ e : Expr π, (e.map f).isArithmetic = e.isArithmetic
  | .group inner _ => by simp [map, isArithmetic, isArithmetic_map inner]
  | .literal .. | .name .. | .call .. | .binary .. | .negate .. => by simp [map, isArithmetic]

mutual

/-- An expression with replaced places is expressed alike. -/
theorem toShell_map : ∀ (e : Expr π) (context : Context),
    (e.map f).toShell context = (e.toShell context).relocate f
  | .literal kind text p, context => by simp [map, toShell]
  | .name text p, context => by simp [map, toShell]
  | .call form callee cp arguments p, context => by
      rw [map, toShell, toShell]
      cases Expansion.ofName? callee with
      | none => simp [allToShell_map arguments]
      | some x =>
          simp only [length_mapAll]
          split
          · cases arguments with
            | nil => simp [mapAll]
            | cons target words =>
                simp only [mapAll, name?_map, place_map]
                split
                · simp
                · simp [wordsToShell_map context callee words, Expansion.toShell_relocate]
          · simp
  | .binary op left right p, context => by
      simp [map, toShell, toShell_map left, toShell_map right]
  | .group inner p, context => by
      simp [map, toShell, toShell_map inner, isArithmetic_map]
  | .negate inner p, context => by
      rw [map, toShell, toShell, number?_map]
      split
      · rfl
      · simp [toShell_map inner]

/-- Arguments with other places are expressed alike, with their problems moved. -/
theorem allToShell_map : ∀ es : List (Expr π),
    allToShell (mapAll f es) = (allToShell es).relocate f
  | [] => by simp [mapAll, allToShell]
  | e :: es => by simp [mapAll, allToShell, toShell_map e, allToShell_map es]

/-- Words with other places are expressed alike, with their problems moved. -/
theorem wordsToShell_map (context : Context) (callee : String) :
    ∀ (es : List (Expr π)) (position : Nat),
      wordsToShell context callee position (mapAll f es) =
        (wordsToShell context callee position es).relocate f
  | [], position => by simp [mapAll, wordsToShell]
  | e :: es, position => by
      rw [mapAll, wordsToShell, wordsToShell, toShell_map e, Checked.relocate_bind]
      congr 1
      funext word
      split
      · simp [wordsToShell_map context callee es]
      · simp

end

/-- A test with other places is expressed alike, with its problems moved. -/
theorem testToShell_map (e : Expr π) : (e.map f).testToShell = e.testToShell.relocate f := by
  rw [testToShell, testToShell, toShell_map, Checked.relocate_bind]
  congr 1
  funext shell
  cases shell <;> rfl

end Expr

mutual

/-- A statement with other places is expressed alike, with its problems moved. -/
theorem Stmt.toShell_map : ∀ s : Stmt π, (s.map f).toShell = s.toShell.relocate f
  | .comment text p => by simp [Stmt.map, Stmt.toShell]
  | .blank p => by simp [Stmt.map, Stmt.toShell]
  | .assign target tp value p => by simp [Stmt.map, Stmt.toShell, Expr.toShell_map]
  | .run value p => by
      rw [Stmt.map, Stmt.toShell, Stmt.toShell, Expr.expansionName?_map]
      split
      · simp
      · simp [Expr.toShell_map]
  | .cond test body bp alternative p => by
      simp [Stmt.map, Stmt.toShell, Expr.testToShell_map, Stmt.allToShell_map body,
        Else.toShell_map alternative]

/-- Several statements with other places are expressed alike, with their problems moved. -/
theorem Stmt.allToShell_map : ∀ ss : List (Stmt π),
    Stmt.allToShell (Stmt.mapAll f ss) = (Stmt.allToShell ss).relocate f
  | [] => by simp [Stmt.mapAll, Stmt.allToShell]
  | s :: ss => by simp [Stmt.mapAll, Stmt.allToShell, Stmt.toShell_map s, Stmt.allToShell_map ss]

/-- What follows the body of a conditional is expressed alike with other places, with its problems
moved. -/
theorem Else.toShell_map : ∀ a : Else π, (a.map f).toShell = a.toShell.relocate f
  | .absent => by simp [Else.map, Else.toShell]
  | .block body bp => by simp [Else.map, Else.toShell, Stmt.allToShell_map body]
  | .elseIf test body bp rest => by
      simp [Else.map, Else.toShell, Expr.testToShell_map, Stmt.allToShell_map body,
        Else.toShell_map rest]

end

/-- A script with replaced places has the same shell script, or the same problems with
their places replaced. -/
theorem Script.toShell_map (s : Script π) :
    (s.map f).toShell = s.toShell.mapError (List.map (Problem.map f)) := by
  rw [Script.toShell, Script.toShell, Script.map, Stmt.allToShell_map]
  simp only [Checked.relocate, List.isEmpty_map]
  split <;> rfl

/-! ### Compiling and formatting -/

/-- Move the problems of an error to other places. -/
def CompileError.map (f : Span → Span) : CompileError → CompileError
  | .malformed problems => .malformed (problems.map (Problem.map f))
  | .inexpressible problems => .inexpressible (problems.map (Problem.map f))

section Sources

variable {f : Span → Span} {source source' : Source}

/-- Scripts that are read alike but for places parse alike. -/
theorem Script.parse_map (hscript : (read source').1 = (read source).1.map f)
    (hproblems : (read source').2 = (read source).2.map (Problem.map f)) :
    parse source' =
      match parse source with
      | .ok script => .ok (script.map f)
      | .error e => .error (e.map f) := by
  rw [parse, parse]
  simp only [hscript, hproblems, List.isEmpty_map]
  split <;> rfl

/-- A script with other places is compiled alike, with its problems moved. -/
theorem Script.compile_map (s : Script Span) (width : Nat) :
    (s.map f).compile width = (s.compile width).mapError (CompileError.map f) := by
  rw [Script.compile, Script.compile, Script.express, Script.express, Script.toShell_map]
  cases s.toShell <;> rfl

/-- They compile to the same text, or have the same problems at other places. -/
theorem compile_map (hscript : (Script.read source').1 = (Script.read source).1.map f)
    (hproblems : (Script.read source').2 = (Script.read source).2.map (Problem.map f))
    (width : Nat) :
    compile source' width = (compile source width).mapError (CompileError.map f) := by
  rw [compile, compile, Script.parse_map hscript hproblems]
  cases Script.parse source with
  | error e => rfl
  | ok script =>
      change (script.map f).flatten.compile width = _
      rw [Script.flatten_map, Script.compile_map]
      rfl

/-- They have the same layout, or the same problems at other places. -/
theorem format_map (hscript : (Script.read source').1 = (Script.read source).1.map f)
    (hproblems : (Script.read source').2 = (Script.read source).2.map (Problem.map f)) :
    format source' = (format source).mapError (CompileError.map f) := by
  rw [format, format, Script.parse_map hscript hproblems]
  cases Script.parse source with
  | error e => rfl
  | ok script =>
      change Except.ok (script.map f).layout = _
      rw [Script.layout_map]
      rfl

end Sources

end Shellward
