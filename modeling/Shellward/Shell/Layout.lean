import Shellward.Shell.Basic
import Shellward.Line

/-!
# The text of shell scripts

A shell script is written one command a line below the line that names its
interpreter.  Bodies without a command get the command that does nothing, since
the shell accepts no empty body.
-/

namespace Shellward
namespace Shell

/-- The characters other than white space that an unquoted word may not hold,
because the shell would split, quote, expand or match them. -/
def specials : List Char :=
  ['(', ')', ';', '&', '|', '<', '>', '\x27', '\x22', '\x5c', '\x60', '$', '*', '?', '[', ']', '#',
    '~', '\x7b', '\x7d']

/-- Whether the shell reads a text as the same single word with and without quotes. -/
def isPlainWord (chars : List Char) : Bool :=
  !chars.isEmpty && chars.all fun c => !(Text.isBlank c || specials.contains c)

/-- The characters between double quotes, if the text is so quoted. -/
def unquote? (chars : List Char) : Option (List Char) :=
  match chars with
  | '\x22' :: rest => if rest.getLast? = some '\x22' then some rest.dropLast else none
  | _ => none

/-- A text without its double quotes where they make no difference. -/
def bareText (text : String) : String :=
  match unquote? text.toList with
  | some inner => if isPlainWord inner then String.ofList inner else text
  | none => text

/-- The text of a redirection. -/
def Redirect.layout (r : Redirect) : String :=
  (match r.source with
    | some descriptor => toString descriptor
    | none => "") ++ ">&" ++ toString r.target

/-- The text of redirections, each after a space. -/
def layoutRedirects : List Redirect → String
  | [] => ""
  | r :: rs => " " ++ r.layout ++ layoutRedirects rs

/-- The mark that removes the longest match at one end. -/
def removalMark : TextEnd → String
  | .front => "##"
  | .back => "%%"

namespace Expr

mutual

/-- The text of an expression.  Between the brackets of a test the parentheses
of groups are escaped. -/
def layout (inTest : Bool) : Expr → String
  | .text raw => bareText raw
  | .value name true => "\"$" ++ name ++ "\""
  | .value name false => "$" ++ name
  | .command name arguments redirects =>
      name ++ layoutArguments arguments ++ layoutRedirects redirects
  | .binary operator left right =>
      left.layout inTest ++ " " ++ operator ++ " " ++ right.layout inTest
  | .group inner =>
      if inTest then "\\( " ++ inner.layout inTest ++ " \\)"
      else "( " ++ inner.layout inTest ++ " )"
  | .arithmetic inner => "$(( " ++ inner.layout false ++ " ))"
  | .test inner => "[ " ++ inner.layout true ++ " ]"
  | .substitution inner => "$(" ++ inner.layout false ++ ")"
  | .length name => "$\x7b#" ++ name ++ "\x7d"
  | .replace name everywhere pattern replacement =>
      "$\x7b" ++ name ++ (if everywhere then "//" else "/") ++ pattern.layout false ++ "/" ++
        replacement.layout false ++ "\x7d"
  | .remove name side pattern =>
      "$\x7b" ++ name ++ removalMark side ++ pattern.layout false ++ "\x7d"

/-- The text of arguments, each after a space. -/
def layoutArguments : List Expr → String
  | [] => ""
  | e :: es => " " ++ e.layout false ++ layoutArguments es

end

end Expr

/-- The command that does nothing. -/
def noCommand : String := ":"

/-- Whether a statement is a command. -/
def Stmt.isCommand : Stmt → Bool
  | .comment _ | .blank => false
  | _ => true

/-- The lines of a body: those of its statements, and of the command that does
nothing if none of them is a command. -/
def bodyLines (depth : Nat) (body : List Stmt) (lines : List Line) : List Line :=
  if body.any Stmt.isCommand then lines else lines ++ [⟨depth, noCommand⟩]

mutual

/-- The lines of a statement inside `depth` blocks. -/
def Stmt.layout (depth : Nat) : Stmt → List Line
  | .comment text => [⟨depth, text⟩]
  | .blank => [Line.blank]
  | .assign target value => [⟨depth, target ++ "=" ++ value.layout false⟩]
  | .run value => [⟨depth, value.layout false⟩]
  | .cond test body alternative =>
      ⟨depth, "if " ++ (Expr.test test).layout false ++ "; then"⟩ ::
        bodyLines (depth + 1) body (Stmt.layoutAll (depth + 1) body) ++ alternative.layout depth

/-- The lines of several statements. -/
def Stmt.layoutAll (depth : Nat) : List Stmt → List Line
  | [] => []
  | s :: ss => s.layout depth ++ Stmt.layoutAll depth ss

/-- The lines from the end of a body of a conditional on. -/
def Else.layout (depth : Nat) : Else → List Line
  | .absent => [⟨depth, "fi"⟩]
  | .block body =>
      ⟨depth, "else"⟩ :: bodyLines (depth + 1) body (Stmt.layoutAll (depth + 1) body) ++
        [⟨depth, "fi"⟩]
  | .elseIf test body rest =>
      ⟨depth, "elif " ++ (Expr.test test).layout false ++ "; then"⟩ ::
        bodyLines (depth + 1) body (Stmt.layoutAll (depth + 1) body) ++ rest.layout depth

end

namespace Script

/-- The line that names the interpreter. -/
def interpreter : Line :=
  ⟨0, "#!/bin/sh"⟩

/-- The lines of a script. -/
def lines (s : Script) : List Line :=
  interpreter :: Line.blank :: Stmt.layoutAll 0 s.statements

/-- The text of a script, indented by `width` spaces a block. -/
def layout (s : Script) (width : Nat) : String :=
  Line.renderAll width s.lines

end Script
end Shell
end Shellward
