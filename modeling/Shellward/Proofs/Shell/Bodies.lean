import Shellward.Proofs.Shell.Occurrences

/-!
# Commands and bodies of shell scripts

The shell needs a command in every body of a conditional, and it sees an argument of a command
only if the argument has a text.  A line is a command if it has a character that is no white
space and the first one does not begin a comment.

Main results:

- Theorem `Expr.allArguments_eq`: the arguments of the commands in an expression are its own
  and those in its children.
- Theorem `Script.isInfix_of_mem_bodies`: the bodies of a script are parts of its lines.
- Theorem `Script.exists_command_of_mem_bodies`: a body has a command if every statement of
  the script that is to be a command is written as one.
-/

namespace Shellward

/-! ### Texts that show -/

namespace Text

/-- Whether a text has a character that is no white space. -/
def isVisible (text : String) : Bool :=
  text.toList.any fun c => !isBlank c

/-- Whether a line is a command: its first character that is no white space begins no comment. -/
def isCommand (line : String) : Bool :=
  match line.toList.dropWhile isBlank with
  | [] => false
  | c :: _ => c != '#'

/-- A text begins with a character that is no white space and begins no comment. -/
def Shows (text : String) : Prop :=
  ∃ c rest, text.toList = c :: rest ∧ isBlank c = false ∧ c ≠ '#'

/-- A text that shows still does so with more after it. -/
theorem Shows.append {text : String} (h : Shows text) (after : String) : Shows (text ++ after) := by
  rcases h with ⟨c, rest, htext, hc⟩
  exact ⟨c, rest ++ after.toList, by rw [String.toList_append, htext, List.cons_append], hc⟩

/-- A text that shows has a visible character. -/
theorem Shows.isVisible {text : String} (h : Shows text) : isVisible text = true := by
  rcases h with ⟨c, rest, htext, hblank, _⟩
  simp [Text.isVisible, htext, hblank]

/-- A text that shows is a command as a line. -/
theorem Shows.isCommand {text : String} (h : Shows text) : isCommand text = true := by
  rcases h with ⟨c, rest, htext, hblank, hmark⟩
  simp [Text.isCommand, htext, hblank, hmark]

end Text

namespace Shell

/-! ### The arguments of commands -/

/-- The arguments of an expression that is a command. -/
def Expr.arguments : Expr → List Expr
  | .command _ arguments _ => arguments
  | _ => []

/-- The arguments of the commands in an expression, at any depth. -/
def Expr.allArguments (e : Expr) : List Expr :=
  (e.occurrences []).flatMap fun o => o.node.arguments

/-- The arguments in an expression are its own and those in its children. -/
theorem Expr.allArguments_eq (e : Expr) :
    e.allArguments = e.arguments ++ e.children.flatMap allArguments := by
  have haround : ∀ (e : Expr) (around : List Expr),
      (e.occurrences around).flatMap (fun o => o.node.arguments) = e.allArguments := by
    intro e
    induction e using childInduction with
    | step e ih =>
        intro around
        rw [allArguments, occurrences_eq, occurrences_eq, List.flatMap_cons, List.flatMap_cons,
          List.flatMap_assoc, List.flatMap_assoc]
        congr 1
        exact List.flatMap_congr fun c hc => (ih c hc _).trans (ih c hc _).symm
  rw [allArguments, occurrences_eq, List.flatMap_cons, List.flatMap_assoc]
  congr 1
  exact List.flatMap_congr fun c _ => haround c _

/-- The arguments of the commands in a script, at any depth. -/
def Script.arguments (s : Script) : List Expr :=
  s.roots.flatMap fun root => root.2.allArguments

/-! ### Statements and bodies -/

mutual

/-- A statement and the statements in it, each before its own parts. -/
def Stmt.parts : Stmt → List Stmt
  | .comment text => [.comment text]
  | .blank => [.blank]
  | .assign target value => [.assign target value]
  | .run value => [.run value]
  | .cond test body alternative =>
      .cond test body alternative :: (Stmt.allParts body ++ alternative.parts)

/-- The statements in several statements. -/
def Stmt.allParts : List Stmt → List Stmt
  | [] => []
  | s :: ss => s.parts ++ Stmt.allParts ss

/-- The statements in what follows the body of a conditional. -/
def Else.parts : Else → List Stmt
  | .absent => []
  | .block body => Stmt.allParts body
  | .elseIf _ body rest => Stmt.allParts body ++ rest.parts

end

/-- The statements in a script, at any depth. -/
def Script.allStatements (s : Script) : List Stmt :=
  Stmt.allParts s.statements

/-- The lines of a body inside `depth` blocks. -/
def linesOfBody (depth : Nat) (body : List Stmt) : List Line :=
  bodyLines depth body (Stmt.layoutAll depth body)

mutual

/-- The lines of the bodies in a statement inside `depth` blocks. -/
def Stmt.bodies (depth : Nat) : Stmt → List (List Line)
  | .comment _ | .blank | .assign .. | .run _ => []
  | .cond _ body alternative =>
      linesOfBody (depth + 1) body :: (Stmt.allBodies (depth + 1) body ++ alternative.bodies depth)

/-- The lines of the bodies in several statements. -/
def Stmt.allBodies (depth : Nat) : List Stmt → List (List Line)
  | [] => []
  | s :: ss => s.bodies depth ++ Stmt.allBodies depth ss

/-- The lines of the bodies from the end of a body of a conditional on. -/
def Else.bodies (depth : Nat) : Else → List (List Line)
  | .absent => []
  | .block body => linesOfBody (depth + 1) body :: Stmt.allBodies (depth + 1) body
  | .elseIf _ body rest =>
      linesOfBody (depth + 1) body :: (Stmt.allBodies (depth + 1) body ++ rest.bodies depth)

end

/-- The lines of the bodies in a script. -/
def Script.bodies (s : Script) : List (List Line) :=
  Stmt.allBodies 0 s.statements

/-! ### Bodies are parts of the script -/

/-- The lines of a body begin with those of its statements. -/
theorem isPrefix_linesOfBody (depth : Nat) (body : List Stmt) :
    Stmt.layoutAll depth body <+: linesOfBody depth body := by
  rw [linesOfBody, bodyLines]
  split
  · exact List.prefix_rfl
  · exact List.prefix_append _ _

/-- The bodies of a branch and of what follows it are parts of their lines. -/
theorem isInfix_branch {lines head : List Line} {depth : Nat} {body : List Stmt}
    {bodies : List (List Line)} {after : List Line}
    (h : lines ∈ linesOfBody depth body :: (Stmt.allBodies depth body ++ bodies))
    (hbody : lines ∈ Stmt.allBodies depth body → lines <:+: Stmt.layoutAll depth body)
    (hafter : lines ∈ bodies → lines <:+: after) :
    lines <:+: head ++ linesOfBody depth body ++ after := by
  rcases List.mem_cons.mp h with rfl | h
  · exact List.infix_append _ _ _
  · rcases List.mem_append.mp h with h | h
    · exact ((hbody h).trans (isPrefix_linesOfBody depth body).isInfix).trans
        (List.infix_append _ _ _)
    · exact (hafter h).trans (List.suffix_append _ _).isInfix

mutual

/-- The lines of a body in a statement stand together among the lines of the statement. -/
theorem Stmt.isInfix_of_mem_bodies {lines : List Line} : ∀ (s : Stmt) (depth : Nat),
    lines ∈ s.bodies depth → lines <:+: s.layout depth
  | .comment _, _, h | .blank, _, h | .assign .., _, h | .run _, _, h => absurd h List.not_mem_nil
  | .cond _ body alternative, depth, h => by
      rw [Stmt.layout, ← List.singleton_append]
      exact isInfix_branch h (Stmt.isInfix_of_mem_allBodies body (depth + 1))
        (Else.isInfix_of_mem_bodies alternative depth)

/-- The lines of a body in several statements stand together among their lines. -/
theorem Stmt.isInfix_of_mem_allBodies {lines : List Line} : ∀ (ss : List Stmt) (depth : Nat),
    lines ∈ Stmt.allBodies depth ss → lines <:+: Stmt.layoutAll depth ss
  | [], _, h => absurd h List.not_mem_nil
  | s :: ss, depth, h => by
      rw [Stmt.layoutAll]
      rcases List.mem_append.mp h with h | h
      · exact (Stmt.isInfix_of_mem_bodies s depth h).trans (List.prefix_append _ _).isInfix
      · exact (Stmt.isInfix_of_mem_allBodies ss depth h).trans (List.suffix_append _ _).isInfix

/-- The lines of a body after the first one of a conditional stand together among the
lines there. -/
theorem Else.isInfix_of_mem_bodies {lines : List Line} : ∀ (a : Else) (depth : Nat),
    lines ∈ a.bodies depth → lines <:+: a.layout depth
  | .absent, _, h => absurd h List.not_mem_nil
  | .block body, depth, h => by
      rw [Else.layout, ← List.singleton_append]
      rw [Else.bodies, ← List.append_nil (Stmt.allBodies (depth + 1) body)] at h
      exact isInfix_branch h (Stmt.isInfix_of_mem_allBodies body (depth + 1))
        fun h => absurd h List.not_mem_nil
  | .elseIf _ body rest, depth, h => by
      rw [Else.layout, ← List.singleton_append]
      exact isInfix_branch h (Stmt.isInfix_of_mem_allBodies body (depth + 1))
        (Else.isInfix_of_mem_bodies rest depth)

end

/-- The bodies of a script are parts of its lines. -/
theorem Script.isInfix_of_mem_bodies {s : Script} {lines : List Line} (h : lines ∈ s.bodies) :
    lines <:+: s.lines :=
  (Stmt.isInfix_of_mem_allBodies s.statements 0 h).trans
    (List.suffix_append [interpreter, Line.blank] _).isInfix

/-! ### Bodies have commands -/

/-- If a statement is to be a command, one of its lines is a command. -/
def Stmt.Shows (s : Stmt) : Prop :=
  s.isCommand = true → ∀ depth, ∃ line ∈ s.layout depth, Text.isCommand line.text = true

theorem Stmt.shows_assign {target : String} (h : Text.Shows target) (value : Expr) :
    (Stmt.assign target value).Shows := by
  intro _ depth
  refine ⟨_, List.mem_singleton_self _, ?_⟩
  exact ((h.append _).append _).isCommand

theorem Stmt.shows_run {value : Expr} (h : Text.isCommand (value.layout false) = true) :
    (Stmt.run value).Shows := by
  intro _ depth
  exact ⟨_, List.mem_singleton_self _, h⟩

/-- A conditional has a line that is a command. -/
theorem Stmt.shows_cond (test : Expr) (body : List Stmt) (alternative : Else) :
    (Stmt.cond test body alternative).Shows := by
  intro _ depth
  rw [Stmt.layout]
  refine ⟨_, List.mem_cons_self, ?_⟩
  have hif : Text.Shows "if " := ⟨'i', ['f', ' '], rfl, by decide, by decide⟩
  exact ((hif.append _).append _).isCommand

theorem mem_layoutAll {s : Stmt} {ss : List Stmt} (h : s ∈ ss) (depth : Nat) :
    s.layout depth ⊆ Stmt.layoutAll depth ss := by
  induction ss with
  | nil => exact absurd h List.not_mem_nil
  | cons first rest ih =>
      rw [Stmt.layoutAll]
      rcases List.mem_cons.mp h with rfl | h
      · exact List.subset_append_left _ _
      · exact List.subset_append_of_subset_right _ (ih h)

/-- A body has a command, since one is added if no statement is to be a command. -/
theorem exists_command_linesOfBody {body : List Stmt} (h : ∀ s ∈ body, s.Shows) (depth : Nat) :
    ∃ line ∈ linesOfBody depth body, Text.isCommand line.text = true := by
  have hcolon : Text.isCommand noCommand = true := by decide
  rw [linesOfBody, bodyLines]
  split
  next hany =>
    rcases List.any_eq_true.mp hany with ⟨s, hs, hcommand⟩
    rcases h s hs hcommand depth with ⟨line, hline, htext⟩
    exact ⟨line, mem_layoutAll hs depth hline, htext⟩
  next => exact ⟨_, List.mem_append_right _ (List.mem_singleton_self _), hcolon⟩

theorem Stmt.mem_parts_self (s : Stmt) : s ∈ s.parts := by
  cases s <;> simp [Stmt.parts]

theorem Stmt.mem_allParts_of_mem {s : Stmt} {ss : List Stmt} (h : s ∈ ss) :
    s ∈ Stmt.allParts ss := by
  induction ss with
  | nil => exact absurd h List.not_mem_nil
  | cons first rest ih =>
      rw [Stmt.allParts]
      rcases List.mem_cons.mp h with rfl | h
      · exact List.mem_append_left _ s.mem_parts_self
      · exact List.mem_append_right _ (ih h)

/-- All bodies have a command if those of a branch and of what follows it do. -/
theorem exists_command_branch {depth : Nat} {body : List Stmt} {bodies : List (List Line)}
    (hstatements : ∀ s ∈ Stmt.allParts body, s.Shows)
    (hbody : ∀ lines ∈ Stmt.allBodies depth body, ∃ line ∈ lines, Text.isCommand line.text = true)
    (hbodies : ∀ lines ∈ bodies, ∃ line ∈ lines, Text.isCommand line.text = true) :
    ∀ lines ∈ linesOfBody depth body :: (Stmt.allBodies depth body ++ bodies),
      ∃ line ∈ lines, Text.isCommand line.text = true := by
  have hfirst := exists_command_linesOfBody
    (fun s hs => hstatements s (Stmt.mem_allParts_of_mem hs)) depth
  exact List.forall_mem_cons.mpr ⟨hfirst, List.forall_mem_append.mpr ⟨hbody, hbodies⟩⟩

mutual

/-- Every body in a statement has a line that is a command if the statements in it show. -/
theorem Stmt.exists_command_of_mem_bodies : ∀ (s : Stmt) (depth : Nat),
    (∀ part ∈ s.parts, part.Shows) →
      ∀ lines ∈ s.bodies depth, ∃ line ∈ lines, Text.isCommand line.text = true
  | .comment _, _, _ | .blank, _, _ | .assign .., _, _ | .run _, _, _ => List.forall_mem_nil _
  | .cond _ body alternative, depth, h => by
      rcases List.forall_mem_append.mp (List.forall_mem_cons.mp h).2 with ⟨hbody, halternative⟩
      exact exists_command_branch hbody
        (Stmt.exists_command_of_mem_allBodies body (depth + 1) hbody)
        (Else.exists_command_of_mem_bodies alternative depth halternative)

/-- Every body in several statements has a line that is a command if these show. -/
theorem Stmt.exists_command_of_mem_allBodies : ∀ (ss : List Stmt) (depth : Nat),
    (∀ part ∈ Stmt.allParts ss, part.Shows) →
      ∀ lines ∈ Stmt.allBodies depth ss, ∃ line ∈ lines, Text.isCommand line.text = true
  | [], _, _ => List.forall_mem_nil _
  | s :: ss, depth, h => by
      rcases List.forall_mem_append.mp h with ⟨hs, hss⟩
      exact List.forall_mem_append.mpr ⟨Stmt.exists_command_of_mem_bodies s depth hs,
        Stmt.exists_command_of_mem_allBodies ss depth hss⟩

/-- Every body after the first one of a conditional has a line that is a command if the statements
there show. -/
theorem Else.exists_command_of_mem_bodies : ∀ (a : Else) (depth : Nat),
    (∀ part ∈ a.parts, part.Shows) →
      ∀ lines ∈ a.bodies depth, ∃ line ∈ lines, Text.isCommand line.text = true
  | .absent, _, _ => List.forall_mem_nil _
  | .block body, depth, h => by
      rw [Else.bodies, ← List.append_nil (Stmt.allBodies (depth + 1) body)]
      exact exists_command_branch h (Stmt.exists_command_of_mem_allBodies body (depth + 1) h)
        (List.forall_mem_nil _)
  | .elseIf _ body rest, depth, h => by
      rcases List.forall_mem_append.mp h with ⟨hbody, hrest⟩
      exact exists_command_branch hbody
        (Stmt.exists_command_of_mem_allBodies body (depth + 1) hbody)
        (Else.exists_command_of_mem_bodies rest depth hrest)

end

/-- Every body of a script has a command if all statements that are to be commands show. -/
theorem Script.exists_command_of_mem_bodies {s : Script}
    (h : ∀ part ∈ s.allStatements, part.Shows) :
    ∀ lines ∈ s.bodies, ∃ line ∈ lines, Text.isCommand line.text = true :=
  Stmt.exists_command_of_mem_allBodies s.statements 0 h

end Shell
end Shellward
