import Shellward.Grammar.Expr
import Shellward.Suggestion

/-!
# The grammar of statements

Statements end with their lines.  After a mistake parsing goes on at the next
line or at a token that is likely to begin a statement, so that one script can
report several problems.  Blocks inside blocks share the room for nesting with
the expressions in them.
-/

namespace Shellward
namespace Stmt

/-- The keyword that may have been meant by an expression that is only a name. -/
def meantKeyword? : Expr Span → Option String
  | .name text _ => suggest? text (Token.keywords.map (·.1))
  | _ => none

/-- The end of a clause: a line end, which is taken, or the end of the script. -/
def parseLineEnd (after : Clause) (keyword : Option String) : Parser Unit := do
  let t ← Parser.peek
  match t.kind with
  | .newLine => do
      let _ ← Parser.take
      pure ()
  | .eof => pure ()
  | _ => Parser.fail (.lineEndExpected after t.found keyword) t.span

/-- A comment. -/
def parseComment : Parser (Stmt Span) := do
  let t ← Parser.take
  parseLineEnd .comment none
  pure (.comment t.lexeme t.span)

/-- A line end where a statement may begin. -/
def parseBlank : Parser (Stmt Span) := do
  let t ← Parser.take
  pure (.blank t.span)

/-- The name that an assignment sets. -/
def parseTarget : Parser Token := do
  let t ← Parser.peek
  match t.kind with
  | .identifier => Parser.take
  | .invalid => Parser.fail (Fault.ofInvalidLexeme t.lexeme) t.span
  | _ => Parser.fail (.nameExpected t.found) t.span

/-- An assignment. -/
def parseAssign (expression : Parser (Expr Span)) : Parser (Stmt Span) := do
  let start ← Parser.take
  let target ← parseTarget
  let _ ← Parser.require .assign (.assignExpected target.lexeme)
  let value ← expression
  parseLineEnd .assignment none
  pure (.assign target.lexeme target.span value (start.span.merge value.place))

/-- Statements in braces; `contents` reads what stands between them. -/
def parseBlock (contents : Parser (List (Stmt Span))) : Parser (List (Stmt Span) × Span) := do
  let start ← Parser.require .leftBrace .blockExpected
  let _ ← Parser.require .newLine .blockLineExpected
  let body ← contents
  let t ← Parser.peek
  if t.kind = .rightBrace then
    let close ← Parser.take
    pure (body, start.span.merge close.span)
  else Parser.fail .blockUnclosed start.span

/-- A condition and its block. -/
def parseBranch (expression : Parser (Expr Span)) (contents : Parser (List (Stmt Span))) :
    Parser (Expr Span × List (Stmt Span) × Span) := do
  let test ← expression
  let (body, place) ← parseBlock contents
  pure (test, body, place)

/-- One more condition of a conditional, in front of those read before. -/
def parseElseIf (expression : Parser (Expr Span)) (contents : Parser (List (Stmt Span)))
    (branches : List (Expr Span × List (Stmt Span) × Span)) :
    Parser (Option (List (Expr Span × List (Stmt Span) × Span))) := do
  let first ← Parser.peek
  let second ← Parser.peekNext
  if first.kind = .elseWord ∧ second.kind = .ifWord then
    let _ ← Parser.take
    let _ ← Parser.take
    let branch ← parseBranch expression contents
    pure (some (branch :: branches))
  else pure none

/-- The last block of a conditional, if there is one. -/
def parseOtherwise (contents : Parser (List (Stmt Span))) : Parser (Else Span) := do
  let t ← Parser.peek
  if t.kind = .elseWord then
    let _ ← Parser.take
    let (body, place) ← parseBlock contents
    pure (.block body place)
  else pure .absent

/-- A conditional. -/
def parseCond (expression : Parser (Expr Span)) (contents : Parser (List (Stmt Span))) :
    Parser (Stmt Span) := do
  let start ← Parser.take
  let (test, body, place) ← parseBranch expression contents
  let branches ← Parser.iterate (parseElseIf expression contents) []
  let last ← parseOtherwise contents
  let alternative := Else.ofBranches last branches.reverse
  parseLineEnd .conditional none
  pure (.cond test body place alternative (start.span.merge (alternative.lastPlace place)))

/-- The kinds of token that can begin an expression; an invalid token counts, so
that it is reported as such. -/
def beginsExpression : Token.Kind → Bool
  | .identifier | .number | .string | .pattern | .atom | .minus | .leftParen | .invalid => true
  | _ => false

/-- An expression on a line of its own. -/
def parseRun (expression : Parser (Expr Span)) : Parser (Stmt Span) := do
  let t ← Parser.peek
  let next ← Parser.peekNext
  if !beginsExpression t.kind then
    Parser.fail (.statementExpected t.found) t.span
  else if t.kind = .identifier ∧ next.kind = .assign then
    Parser.fail (.letExpected t.lexeme) t.span
  else
    let value ← expression
    parseLineEnd .expression (meantKeyword? value)
    pure (.run value value.place)

/-- A statement. -/
def parse (expression : Parser (Expr Span)) (contents : Parser (List (Stmt Span))) :
    Parser (Stmt Span) := do
  let t ← Parser.peek
  match t.kind with
  | .comment => parseComment
  | .newLine => parseBlank
  | .letWord => parseAssign expression
  | .ifWord => parseCond expression contents
  | _ => parseRun expression

/-- Whether a token ends a list of statements. -/
def endsList (inBlock : Bool) (t : Token) : Bool :=
  t.kind == .eof || (inBlock && t.kind == .rightBrace)

/-- Whether a token is passed over after a mistake. -/
def isSkipped (inBlock : Bool) (t : Token) : Bool :=
  !(endsList inBlock t || t.kind == .newLine || t.kind == .ifWord || t.kind == .comment)

/-- Go on after a mistake: past the next line end, or up to a token that may
begin a statement or that ends the list.  If the mistake was found at a token
that may begin a statement, that token is passed over. -/
def resume (inBlock : Bool) : Parser Unit := do
  let found ← Parser.peek
  Parser.skipWhile (isSkipped inBlock)
  let t ← Parser.peek
  if t.kind = .newLine ∨ (!isSkipped inBlock found ∧ !endsList inBlock found) then
    let _ ← Parser.take
    pure ()
  else pure ()

/-- One more statement, in front of those read before; a mistake gives none. -/
def parseNext (inBlock : Bool) (statement : Parser (Stmt Span)) (statements : List (Stmt Span)) :
    Parser (Option (List (Stmt Span))) := do
  let t ← Parser.peek
  if endsList inBlock t then pure none
  else
    match ← Parser.attempt statement with
    | some s => pure (some (s :: statements))
    | none => do
        resume inBlock
        pure (some statements)

/-- Statements up to the end of a block or of the script. -/
def parseList (inBlock : Bool) (statement : Parser (Stmt Span)) : Parser (List (Stmt Span)) := do
  let statements ← Parser.iterate (parseNext inBlock statement) []
  pure statements.reverse

/-- A block for which there is no room. -/
def refuseBlock : Parser (List (Stmt Span)) := do
  let t ← Parser.peek
  Parser.fail .blockTooDeep t.span

/-- Statements, with room for `room` blocks and expressions inside one another. -/
def parseAll : (room : Nat) → (inBlock : Bool) → Parser (List (Stmt Span))
  | 0, inBlock => parseList inBlock (parse (Expr.parse 0 Operator.loosest) refuseBlock)
  | room + 1, inBlock =>
      parseList inBlock (parse (Expr.parse (room + 1) Operator.loosest) (parseAll room true))

end Stmt

namespace Script

/-- How many blocks and expressions may stand inside one another. -/
def maxNesting : Nat := 256

/-- The script that tokens spell, as far as it can be read, and its problems. -/
def ofTokens (tokens : List Token) : Script Span × List (Problem Span) :=
  let outcome := Stmt.parseAll maxNesting false (Cursor.ofTokens tokens)
  (⟨outcome.value.getD []⟩, outcome.problems)

end Script
end Shellward
