import Shellward.Grammar.Stmt
import Shellward.Script.Flatten
import Shellward.Script.Layout
import Shellward.Script.ToShell
import Shellward.Script.Translator
import Shellward.Shell.Layout
import Shellward.Token.Scan

/-!
# Compiling scripts

The way from the bytes of a script to the text of a shell script, and to the
script in its own layout.  A session compiles several scripts that share one
shell, so their temporaries are numbered on and one translator expresses them.
-/

namespace Shellward

/-- Why a script has no shell script. -/
inductive CompileError where
  /-- The script does not follow the grammar. -/
  | malformed (problems : List (Problem Span))
  /-- The script calls for something that the shell cannot express. -/
  | inexpressible (problems : List (Problem Span))
deriving DecidableEq, Repr

namespace CompileError

/-- The problems of a script. -/
def problems : CompileError → List (Problem Span)
  | .malformed problems | .inexpressible problems => problems

/-- The diagnostics of a script. -/
def diagnostics (e : CompileError) : List (Diagnostic Span) :=
  e.problems.map Problem.diagnostic

/-- One sentence on what failed. -/
def message (e : CompileError) : String :=
  (match e with
    | .malformed _ => "failed to parse script ("
    | .inexpressible _ => "failed to compile script (") ++
    toString e.problems.length ++ " error(s))"

end CompileError

namespace Script

/-- Read a script as far as possible, and report its problems. -/
def read (source : Source) : Script Span × List (Problem Span) :=
  ofTokens (Token.ofSource source)

/-- Read a script that has no problems. -/
def parse (source : Source) : Except CompileError (Script Span) :=
  let (script, problems) := read source
  if problems.isEmpty then .ok script else .error (.malformed problems)

/-- The shell script for a script as it stands, without flattening it first. -/
def express (script : Script Span) : Except CompileError Shell.Script :=
  script.toShell.mapError .inexpressible

/-- The text of the shell script for a script as it stands. -/
def compile (script : Script Span) (width : Nat) : Except CompileError String :=
  return (← script.express).layout width

end Script

/-- The indentation of shell scripts unless another one is asked for. -/
def defaultWidth : Nat := 4

/-- Compile a script to the text of a shell script, indented by `width` spaces a block. -/
def compile (source : Source) (width : Nat) : Except CompileError String := do
  let script ← Script.parse source
  script.flatten.compile width

/-- Write a script in its own layout. -/
def format (source : Source) : Except CompileError String :=
  return (← Script.parse source).layout

/-- Several scripts compiled for one shell, by one translator. -/
structure Session where
  /-- The number of temporaries named so far. -/
  temporaries : Nat
  translator : Translator Span
deriving DecidableEq, Repr

namespace Session

/-- A session before its first script. -/
def start : Session :=
  ⟨0, .start⟩

/-- Flatten the next script of a session. -/
def flatten (session : Session) (script : Script Span) : Script Span × Session :=
  let (script, temporaries) := script.flattenFrom session.temporaries
  (script, { session with temporaries })

/-- Express the next script of a session as it stands. -/
def express (session : Session) (script : Script Span) :
    Except CompileError Shell.Script × Session :=
  let (result, translator) := session.translator.express script
  (result.mapError .inexpressible, { session with translator })

/-- Flatten the next script of a session and express it in the shell.  A script
that the shell cannot express still uses up its temporaries. -/
def next (session : Session) (script : Script Span) :
    (Script Span × Except CompileError Shell.Script) × Session :=
  let (flat, session) := session.flatten script
  let (result, session) := session.express flat
  ((flat, result), session)

/-- What a session can be asked for. -/
inductive Request where
  | flatten (script : Script Span)
  | express (script : Script Span)

/-- What a session answers. -/
inductive Answer where
  | flattened (script : Script Span)
  | expressed (result : Except CompileError Shell.Script)

/-- Answer a request. -/
def answer (session : Session) : Request → Answer × Session
  | .flatten script =>
      let (flat, session) := session.flatten script
      (.flattened flat, session)
  | .express script =>
      let (result, session) := session.express script
      (.expressed result, session)

/-- Answer requests in order. -/
def run (session : Session) : List Request → List Answer
  | [] => []
  | request :: rest =>
      let (answer, session) := session.answer request
      answer :: session.run rest

end Session
end Shellward
