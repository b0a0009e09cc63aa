import Shellward.Proofs.Script.OneLine

/-!
# The lines of shell scripts

The lines of a shell script follow the statements of its script.  A comment and a blank line
have a line of their own.  An assignment and a command have one line, after those of the
temporaries that they need; a conditional has one for each of its keywords and the lines of its
bodies one step deeper.  How far a step is indented makes no other difference.

Main results:

- Theorem `Stmt.written_flattenAll`: the lines of statements that are flattened follow the
  statements.
- Theorem `Stmt.WrittenAll.remarks`: comments and blank lines are among the lines, in order.
- Theorem `compile_lines`: the lines of every script that is compiled.
- Theorem `compile_drops_blank_in_call`: a blank line between the parentheses of a call is none
  of them.
-/

namespace Shellward

open Flatten (temporary)

variable {π : Type}

/-! ### Lines that follow statements -/

/-- Lines that assign to temporaries, inside `depth` blocks. -/
def Line.Hoisted (depth : Nat) (lines : List Line) : Prop :=
  ∀ line ∈ lines, line.depth = depth ∧
    ∃ number value, line.text = temporary number ++ "=" ++ value

mutual

/-- Lines that follow a statement inside `depth` blocks. -/
inductive Stmt.Written : Nat → Stmt π → List Line → Prop where
  | comment (depth : Nat) (text : String) (p : π) :
      Stmt.Written depth (.comment text p) [⟨depth, text⟩]
  | blank (depth : Nat) (p : π) : Stmt.Written depth (.blank p) [⟨0, ""⟩]
  | assign {depth : Nat} {target : String} {tp p : π} {value : Expr π} {before : List Line}
      (hbefore : Line.Hoisted depth before) (text : String) :
      Stmt.Written depth (.assign target tp value p)
        (before ++ [⟨depth, Text.upper target ++ "=" ++ text⟩])
  | run {depth : Nat} {value : Expr π} {p : π} {before : List Line}
      (hbefore : Line.Hoisted depth before) (text : String) :
      Stmt.Written depth (.run value p) (before ++ [⟨depth, text⟩])
  | cond {depth : Nat} {test : Expr π} {body : List (Stmt π)} {bp p : π} {alternative : Else π}
      {before inside after : List Line} (hbefore : Line.Hoisted depth before) (condition : String)
      (hbody : Stmt.WrittenBody (depth + 1) body inside)
      (halternative : Else.Written depth alternative after) :
      Stmt.Written depth (.cond test body bp alternative p)
        (before ++ (⟨depth, "if " ++ condition ++ "; then"⟩ :: inside ++ after))

/-- Lines that follow several statements. -/
inductive Stmt.WrittenAll : Nat → List (Stmt π) → List Line → Prop where
  | nil (depth : Nat) : Stmt.WrittenAll depth [] []
  | cons {depth : Nat} {s : Stmt π} {ss : List (Stmt π)} {first rest : List Line}
      (hfirst : Stmt.Written depth s first) (hrest : Stmt.WrittenAll depth ss rest) :
      Stmt.WrittenAll depth (s :: ss) (first ++ rest)

/-- Lines that follow a body: if it has only comments and blank lines, a command comes last. -/
inductive Stmt.WrittenBody : Nat → List (Stmt π) → List Line → Prop where
  | commands {depth : Nat} {body : List (Stmt π)} {lines : List Line}
      (h : Stmt.WrittenAll depth body lines) (hcommand : ∃ s ∈ body, s.remark? = none) :
      Stmt.WrittenBody depth body lines
  | remarksOnly {depth : Nat} {body : List (Stmt π)} {lines : List Line}
      (h : Stmt.WrittenAll depth body lines) (hremarks : ∀ s ∈ body, s.remark? ≠ none) :
      Stmt.WrittenBody depth body (lines ++ [⟨depth, ":"⟩])

/-- Lines from the end of a body of a conditional on. -/
inductive Else.Written : Nat → Else π → List Line → Prop where
  | absent (depth : Nat) : Else.Written depth .absent [⟨depth, "fi"⟩]
  | block {depth : Nat} {body : List (Stmt π)} {bp : π} {inside : List Line}
      (hbody : Stmt.WrittenBody (depth + 1) body inside) :
      Else.Written depth (.block body bp) (⟨depth, "else"⟩ :: inside ++ [⟨depth, "fi"⟩])
  | elseIf {depth : Nat} {test : Expr π} {body : List (Stmt π)} {bp : π} {rest : Else π}
      {inside after : List Line} (condition : String)
      (hbody : Stmt.WrittenBody (depth + 1) body inside) (hrest : Else.Written depth rest after) :
      Else.Written depth (.elseIf test body bp rest)
        (⟨depth, "elif " ++ condition ++ "; then"⟩ :: inside ++ after)

end

/-! ### Comments and blank lines -/

mutual

/-- The comments and blank lines in a statement are lines of their own, in order. -/
theorem Stmt.Written.remarks : ∀ {depth : Nat} {s : Stmt π} {lines : List Line},
    Stmt.Written depth s lines → (s.parts.filterMap Stmt.remark?).Sublist (lines.map Line.text)
  | _, _, _, .comment .. | _, _, _, .blank .. => List.Sublist.refl _
  | _, _, _, .assign .. | _, _, _, .run .. => List.nil_sublist _
  | _, _, _, .cond _ _ hbody halternative => by
      rw [Stmt.parts, List.filterMap_cons_none rfl, List.filterMap_append, List.map_append,
        List.map_append, List.map_cons]
      have hinside := hbody.remarks.append halternative.remarks
      exact (hinside.cons _).trans (List.sublist_append_right _ _)

/-- The comments and blank lines in several statements are lines of their own, in order. -/
theorem Stmt.WrittenAll.remarks : ∀ {depth : Nat} {ss : List (Stmt π)} {lines : List Line},
    Stmt.WrittenAll depth ss lines →
      ((Stmt.allParts ss).filterMap Stmt.remark?).Sublist (lines.map Line.text)
  | _, _, _, .nil _ => List.Sublist.refl _
  | _, _, _, .cons hfirst hrest => by
      rw [Stmt.allParts, List.filterMap_append, List.map_append]
      exact hfirst.remarks.append hrest.remarks

/-- The comments and blank lines in a body are lines of their own, in order. -/
theorem Stmt.WrittenBody.remarks : ∀ {depth : Nat} {body : List (Stmt π)} {lines : List Line},
    Stmt.WrittenBody depth body lines →
      ((Stmt.allParts body).filterMap Stmt.remark?).Sublist (lines.map Line.text)
  | _, _, _, .commands h _ => h.remarks
  | _, _, _, .remarksOnly h _ => by
      rw [List.map_append]
      exact h.remarks.trans (List.sublist_append_left _ _)

/-- The comments and blank lines in what follows the body of a conditional are lines of their own,
in order. -/
theorem Else.Written.remarks : ∀ {depth : Nat} {a : Else π} {lines : List Line},
    Else.Written depth a lines → (a.parts.filterMap Stmt.remark?).Sublist (lines.map Line.text)
  | _, _, _, .absent _ => List.nil_sublist _
  | _, _, _, .block hbody => by
      rw [List.map_append, List.map_cons]
      exact (hbody.remarks.cons _).trans (List.sublist_append_left _ _)
  | _, _, _, .elseIf _ hbody hrest => by
      rw [Else.parts, List.filterMap_append, List.map_append, List.map_cons]
      exact (hbody.remarks.append hrest.remarks).cons _

end

/-! ### Statements that are flattened -/

namespace Stmt

/-- The lines of statements as they stand. -/
def lines (depth : Nat) (ss : List (Stmt π)) : List Line :=
  Shell.Stmt.layoutAll depth (Stmt.allToShell ss).value

theorem lines_nil (depth : Nat) : lines depth ([] : List (Stmt π)) = [] := by
  rw [lines, Stmt.allToShell]
  rfl

theorem lines_cons (depth : Nat) (s : Stmt π) (ss : List (Stmt π)) :
    lines depth (s :: ss) = s.toShell.value.layout depth ++ lines depth ss := by
  rw [lines, Stmt.allToShell]
  rfl

/-- The lines of statements are those of the first ones and then those of the others. -/
theorem lines_append (depth : Nat) (ss ts : List (Stmt π)) :
    lines depth (ss ++ ts) = lines depth ss ++ lines depth ts := by
  induction ss with
  | nil => rw [lines_nil, List.nil_append, List.nil_append]
  | cons s ss ih => rw [List.cons_append, lines_cons, lines_cons, ih, List.append_assoc]

/-- An assignment has one line. -/
theorem lines_assign (depth : Nat) (target : String) (tp : π) (value : Expr π) (p : π) :
    lines depth [.assign target tp value p] =
      [⟨depth, Text.upper target ++ "=" ++ (value.toShell .value).value.layout false⟩] := by
  rw [lines_cons, lines_nil, Stmt.toShell]
  rfl

/-- A statement becomes a command unless it is a comment or a blank line. -/
theorem isCommand_toShell (s : Stmt π) : s.toShell.value.isCommand = s.remark?.isNone := by
  cases s with
  | comment | blank | assign | cond =>
      rw [Stmt.toShell]
      rfl
  | run value p =>
      rw [Stmt.toShell]
      cases value.expansionName? <;> rfl

/-- Some of the shell statements are commands exactly if some of the statements are. -/
theorem any_isCommand_allToShell (ss : List (Stmt π)) :
    (Stmt.allToShell ss).value.any Shell.Stmt.isCommand = ss.any fun s => s.remark?.isNone := by
  induction ss with
  | nil =>
      rw [Stmt.allToShell]
      rfl
  | cons s ss ih =>
      rw [Stmt.allToShell, List.any_cons, ← ih, ← isCommand_toShell]
      rfl

/-- Flattening keeps whether there is a command. -/
theorem any_flattenAll (ss : List (Stmt π)) (n : Nat) :
    ((Stmt.flattenAll n ss).1.any fun s => s.remark?.isNone) =
      ss.any fun s => s.remark?.isNone := by
  induction ss generalizing n with
  | nil => rw [Stmt.flattenAll]
  | cons s ss ih =>
      rw [Stmt.flattenAll, List.any_append, ih, List.any_cons]
      congr 1
      cases s <;> simp [Stmt.flatten, Stmt.remark?]

end Stmt

/-- The combinators of flattening put only assignments to temporaries before a statement. -/
theorem Flatten.hoisted_hereditary (depth : Nat) :
    Hereditary fun {α : Type} (f : Flatten π α) =>
      ∀ n, Line.Hoisted depth (Stmt.lines depth (f n).before) where
  pure _ n := by
    rw [pure_apply, Stmt.lines_nil]
    exact List.forall_mem_nil _
  bind := by
    intro α β f g hf hg n
    rw [bind_apply, Stmt.lines_append]
    exact List.forall_mem_append.mpr ⟨hf n, hg _ _⟩
  lift value place n := by
    rw [Flatten.lift, Stmt.lines_assign, upper_temporary]
    exact List.forall_mem_singleton.mpr ⟨rfl, n + 1, _, rfl⟩

/-- The assignments put before an expression are lines of the statement's depth. -/
theorem Expr.hoisted_before (e : Expr π) (inside n depth : Nat) :
    Line.Hoisted depth (Stmt.lines depth (e.flatten inside n).before) :=
  (Flatten.hoisted_hereditary depth).flatten e inside n

/-- Assignments to temporaries may follow one another. -/
theorem Line.Hoisted.append {depth : Nat} {lines lines' : List Line} (h : Hoisted depth lines)
    (h' : Hoisted depth lines') : Hoisted depth (lines ++ lines') :=
  List.forall_mem_append.mpr ⟨h, h'⟩

/-- The lines of a body that is flattened follow the body. -/
theorem Stmt.WrittenAll.body {depth : Nat} {body : List (Stmt π)} {n : Nat}
    (h : Stmt.WrittenAll depth body (Stmt.lines depth (Stmt.flattenAll n body).1)) :
    Stmt.WrittenBody depth body
      (Shell.bodyLines depth (Stmt.allToShell (Stmt.flattenAll n body).1).value
        (Stmt.lines depth (Stmt.flattenAll n body).1)) := by
  rw [Shell.bodyLines, Stmt.any_isCommand_allToShell, Stmt.any_flattenAll]
  split
  next hany =>
    apply Stmt.WrittenBody.commands h
    simpa [Option.isNone_iff_eq_none] using hany
  next hany =>
    apply Stmt.WrittenBody.remarksOnly h
    simpa [Option.isNone_iff_eq_none] using hany

mutual

/-- The lines of a statement that is flattened follow the statement. -/
theorem Stmt.written_flatten : ∀ (s : Stmt π) (n depth : Nat),
    Stmt.Written depth s (Stmt.lines depth (s.flatten n).1)
  | .comment text p, n, depth => by
      rw [Stmt.flatten, Stmt.lines_cons, Stmt.lines_nil, Stmt.toShell]
      exact .comment depth text p
  | .blank p, n, depth => by
      rw [Stmt.flatten, Stmt.lines_cons, Stmt.lines_nil, Stmt.toShell]
      exact .blank depth p
  | .assign target tp value p, n, depth => by
      rw [Stmt.flatten, Stmt.lines_append, Stmt.lines_assign]
      exact .assign (value.hoisted_before 1 n depth) _
  | .run value p, n, depth => by
      rw [Stmt.flatten, Stmt.lines_append, Stmt.lines_cons, Stmt.lines_nil, Stmt.toShell]
      cases (value.flatten 0 n).value.expansionName? with
      | some callee => exact .run (value.hoisted_before 0 n depth) _
      | none => exact .run (value.hoisted_before 0 n depth) _
  | .cond test body bp alternative p, n, depth => by
      have htest := test.hoisted_before 1 n depth
      have hbody := (Stmt.written_flattenAll body (test.flatten 1 n).temporaries (depth + 1)).body
      have halternative := Else.written_flatten alternative
        (Stmt.flattenAll (test.flatten 1 n).temporaries body).2 depth
      rw [Stmt.flatten, Stmt.lines_append, Stmt.lines_append, Stmt.lines_cons, Stmt.lines_nil,
        List.append_nil, Stmt.toShell]
      exact .cond (htest.append halternative.1) _ hbody halternative.2

/-- The lines of statements that are flattened follow the statements. -/
theorem Stmt.written_flattenAll : ∀ (ss : List (Stmt π)) (n depth : Nat),
    Stmt.WrittenAll depth ss (Stmt.lines depth (Stmt.flattenAll n ss).1)
  | [], n, depth => by
      rw [Stmt.flattenAll, Stmt.lines_nil]
      exact .nil depth
  | s :: ss, n, depth => by
      rw [Stmt.flattenAll, Stmt.lines_append]
      exact .cons (Stmt.written_flatten s n depth)
        (Stmt.written_flattenAll ss (s.flatten n).2 depth)

/-- The lines of what follows the body of a conditional follow it; what it needs comes before the
conditional. -/
theorem Else.written_flatten : ∀ (a : Else π) (n depth : Nat),
    Line.Hoisted depth (Stmt.lines depth (a.flatten n).before) ∧
      Else.Written depth a ((a.flatten n).value.toShell.value.layout depth)
  | .absent, n, depth => by
      rw [Else.flatten, Stmt.lines_nil, Else.toShell]
      exact ⟨List.forall_mem_nil _, .absent depth⟩
  | .block body bp, n, depth => by
      rw [Else.flatten, Stmt.lines_nil, Else.toShell]
      exact ⟨List.forall_mem_nil _, .block (Stmt.written_flattenAll body n (depth + 1)).body⟩
  | .elseIf test body bp rest, n, depth => by
      have htest := test.hoisted_before 1 n depth
      have hbody := (Stmt.written_flattenAll body (test.flatten 1 n).temporaries (depth + 1)).body
      have hrest := Else.written_flatten rest
        (Stmt.flattenAll (test.flatten 1 n).temporaries body).2 depth
      rw [Else.flatten, Stmt.lines_append, Else.toShell]
      exact ⟨htest.append hrest.1, .elseIf _ hbody hrest.2⟩

end

/-! ### The text of lines -/

/-- Cut at its line feeds, the text of lines without line feeds gives the lines back, each
indented, and nothing after the last one. -/
theorem Line.splitOn_renderAll (width : Nat) {lines : List Line} (h : AllOneLine lines) :
    (renderAll width lines).toList.splitOn '\n' =
      lines.map (fun line => List.replicate (width * line.depth) ' ' ++ line.text.toList) ++
        [[]] := by
  rw [renderAll]
  induction lines with
  | nil => rfl
  | cons line lines ih =>
      rcases List.forall_mem_cons.mp h with ⟨hline, hlines⟩
      have hchars : ∀ c ∈ List.replicate (width * line.depth) ' ' ++ line.text.toList,
          (c == '\n') = false := by
        rw [List.forall_mem_append]
        constructor
        · intro c hc
          rw [List.eq_of_mem_replicate hc]
          rfl
        · intro c hc
          rw [beq_eq_false_iff_ne]
          rintro rfl
          exact hline hc
      have htext : (render width line).toList =
          List.replicate (width * line.depth) ' ' ++ line.text.toList ++ ['\n'] := by
        rw [render, String.toList_append, String.toList_append, Text.replicate,
          String.toList_ofList, Nat.mul_comm]
        rfl
      rw [List.map_cons, String.join_cons, String.toList_append, htext, List.append_assoc,
        List.singleton_append, List.splitOn,
        List.splitOnP_append_cons_of_forall_mem hchars '\n' rfl, ← List.splitOn, ih hlines]
      rfl

/-- A script that is read and expressed in the shell is compiled, with any width. -/
theorem compile_of_toShell {source : Source} {script : Script Span} {shell : Shell.Script}
    (hparse : Script.parse source = .ok script) (hshell : script.flatten.toShell = .ok shell)
    (width : Nat) : compile source width = .ok (shell.layout width) := by
  rw [compile, hparse]
  change script.flatten.compile width = _
  rw [Script.compile, Script.express, hshell]
  rfl

/-- A script that is compiled has lines that do not depend on the width of the indentation.
For every width, the text of its shell script is the line of the interpreter, an empty line and
these lines, each indented by the width for every block around it.  No line has a line feed, the
lines follow the statements of the script, and the comments of the source and its blank lines
outside parentheses are among them in order. -/
theorem compile_lines {source : Source} {width : Nat} {text : String}
    (h : compile source width = .ok text) :
    ∃ (script : Script Span) (lines : List Line), Script.parse source = .ok script ∧
      (∀ width, ∃ text, compile source width = .ok text ∧
        text.toList.splitOn '\n' = "#!/bin/sh".toList :: "".toList ::
          (lines.map (fun line => List.replicate (width * line.depth) ' ' ++ line.text.toList) ++
            ["".toList])) ∧
      (∀ line ∈ lines, '\n' ∉ line.text.toList) ∧
      Stmt.WrittenAll 0 script.statements lines ∧
      source.remarks.Sublist (lines.map Line.text) := by
  rcases exists_of_compile h with ⟨script, shell, hparse, hshell, _⟩
  have hlines := Script.oneLine_lines hparse hshell
  have hwritten : Stmt.WrittenAll 0 script.statements
      (Shell.Stmt.layoutAll 0 shell.statements) := by
    rw [(Script.of_toShell hshell).2]
    exact Stmt.written_flattenAll script.statements 0 0
  refine ⟨script, _, hparse, ?_, hlines, hwritten, ?_⟩
  · intro width
    have hheader : Line.AllOneLine [Shell.Script.interpreter, Line.blank] := by decide
    refine ⟨_, compile_of_toShell hparse hshell width, ?_⟩
    exact Line.splitOn_renderAll width (List.forall_mem_append.mpr ⟨hheader, hlines⟩)
  · rw [← Script.remarks_of_parse hparse]
    exact hwritten.remarks

/-- Comments, blank lines and literals of all kinds, at several depths and with a temporary; one
blank line stands between parentheses, and the last line has no end. -/
def linesSample : Source :=
  Utf8.encode ("# a \\n\r\n\nlet x = len(f(\n\n\"b\\\"\"))\n" ++
    "if x \x7b\n#c\n if :d \x7b\n\n\x7d\n\x7d else if 1 \x7b\n'e*'\n\x7d\n#")

/-- The shell script of the sample. -/
def linesText : String :=
  "#!/bin/sh\n\n# a \\n\n\n_TMP1=$(f \"b\\\"\")\nX=$\x7b#_TMP1\x7d\nif [ \"$X\" ]; then\n" ++
    "   #c\n   if [ d ]; then\n\n      :\n   fi\nelif [ 1 ]; then\n   e*\nfi\n#\n"

/-- The sample is compiled to lines of several depths. -/
theorem compile_lines_sample :
    compile linesSample 3 = .ok linesText ∧
      linesSample.remarks = ["# a \\n", "", "#c", "", "#"] ∧
      ∃ (script : Script Span) (lines : List Line), Script.parse linesSample = .ok script ∧
        (∀ width, ∃ text, compile linesSample width = .ok text ∧
          text.toList.splitOn '\n' = "#!/bin/sh".toList :: "".toList ::
            (lines.map (fun line => List.replicate (width * line.depth) ' ' ++ line.text.toList) ++
              ["".toList])) ∧
        (∀ line ∈ lines, '\n' ∉ line.text.toList) ∧
        Stmt.WrittenAll 0 script.statements lines ∧
        linesSample.remarks.Sublist (lines.map Line.text) := by
  have hcompile : compile linesSample 3 = .ok linesText := by
    decide +kernel
  exact ⟨hcompile, by decide +kernel, compile_lines hcompile⟩

/-- The texts of the comments and of all blank lines among tokens, whether inside parentheses or
not; `fresh` tells whether no token stands on the line yet. -/
def Token.allRemarks (fresh : Bool) : List Token → List String
  | [] => []
  | t :: ts =>
      match t.kind with
      | .comment => t.lexeme :: allRemarks false ts
      | .newLine => if fresh then "" :: allRemarks true ts else allRemarks true ts
      | _ => allRemarks false ts

/-- The lines of the shell script of a source have all its comments and blank lines, those inside
parentheses too. -/
def Source.KeepsAllRemarks (source : Source) : Prop :=
  ∃ lines : List Line,
    (∀ width, ∃ text, compile source width = .ok text ∧
      text.toList.splitOn '\n' = "#!/bin/sh".toList :: "".toList ::
        (lines.map (fun line => List.replicate (width * line.depth) ' ' ++ line.text.toList) ++
          ["".toList])) ∧
    (Token.allRemarks true (Token.ofSource source)).Sublist (lines.map Line.text)

/-- A call with a blank line between its parentheses. -/
def blankInCall : Source :=
  Utf8.encode "f(\n\n1)\n"

/-- A blank line between the parentheses of a call only continues the call.  It has no line in
the shell script. -/
theorem compile_drops_blank_in_call :
    compile blankInCall 4 = .ok "#!/bin/sh\n\nf 1\n" ∧ blankInCall.remarks = [] ∧
      Token.allRemarks true (Token.ofSource blankInCall) = [""] ∧
      ¬ blankInCall.KeepsAllRemarks := by
  have hcompile : compile blankInCall 4 = .ok "#!/bin/sh\n\nf 1\n" := by decide +kernel
  have hremarks : Token.allRemarks true (Token.ofSource blankInCall) = [""] := by decide +kernel
  refine ⟨hcompile, by decide +kernel, hremarks, ?_⟩
  rintro ⟨lines, hlines, hsublist⟩
  rcases hlines 4 with ⟨text, htext, hsplit⟩
  rw [hcompile] at htext
  cases htext
  -- The only line is that of the call, so no line has an empty text.
  have hline : lines.map (fun line => List.replicate (4 * line.depth) ' ' ++ line.text.toList) =
      ["f 1".toList] := by
    have hall : "#!/bin/sh\n\nf 1\n".toList.splitOn '\n' =
        "#!/bin/sh".toList :: "".toList :: (["f 1".toList] ++ ["".toList]) := by decide +kernel
    rw [hall] at hsplit
    exact (List.append_cancel_right (List.cons.inj (List.cons.inj hsplit).2).2).symm
  rw [hremarks, List.singleton_sublist, List.mem_map] at hsublist
  rcases hsublist with ⟨line, hmem, hempty⟩
  have hblanks : List.replicate (4 * line.depth) ' ' ++ line.text.toList ∈ ["f 1".toList] :=
    hline ▸ List.mem_map_of_mem hmem
  rw [hempty, List.mem_singleton] at hblanks
  have hf : 'f' ∈ List.replicate (4 * line.depth) ' ' ++ "".toList := by
    rw [hblanks]
    decide
  simp at hf

end Shellward
