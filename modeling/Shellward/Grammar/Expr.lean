import Shellward.Token.Parser
import Shellward.Script.Basic

/-!
# The grammar of expressions

Operands are literals, names, negations and groups; operators join them by
strength, and arguments in parentheses make a name a call.  Each expression
inside another one uses up some of the room for nesting, so the room left is
what the recursion decreases.
-/

namespace Shellward
namespace Expr

/-- The expression that a token is by itself. -/
def ofToken? (t : Token) : Option (Expr Span) :=
  match t.kind with
  | .string => some (.literal .string t.lexeme t.span)
  | .pattern => some (.literal .pattern t.lexeme t.span)
  | .atom => some (.literal .atom t.lexeme t.span)
  | .number => some (.literal .number t.lexeme t.span)
  | .identifier => some (.name t.lexeme t.span)
  | _ => none

/-- A negation: a minus sign and its operand. -/
def parseNegation (inner : Nat → Parser (Expr Span)) : Parser (Expr Span) := do
  let sign ← Parser.take
  let operand ← inner Operator.negationStrength
  pure (.negate operand (sign.span.merge operand.place))

/-- A group: an expression in parentheses. -/
def parseGroup (inner : Nat → Parser (Expr Span)) : Parser (Expr Span) := do
  let left ← Parser.take
  let body ← inner Operator.loosest
  let right ← Parser.require .rightParen .groupUnclosed
  pure (.group body (left.span.merge right.span))

/-- An operand.  The expressions inside it are read by `inner`, which is given
the strength that their operators must exceed. -/
def parseOperand (inner : Nat → Parser (Expr Span)) : Parser (Expr Span) := do
  let t ← Parser.peek
  match ofToken? t with
  | some e => do
      let _ ← Parser.take
      pure e
  | none =>
      match t.kind with
      | .minus => parseNegation inner
      | .leftParen => parseGroup inner
      | .invalid => Parser.fail (Fault.ofInvalidLexeme t.lexeme) t.span
      | _ => Parser.fail (.expressionExpected t.found) t.span

/-- One more argument of a call, in front of those read before, and what
separates it from the next one; `none` at the closing parenthesis. -/
def parseArgument (inner : Nat → Parser (Expr Span)) (callee : String)
    (arguments : List (Expr Span)) : Parser (Option (List (Expr Span))) := do
  let t ← Parser.peek
  if t.kind = .rightParen then pure none
  else
    let argument ← inner Operator.loosest
    Parser.skipLineEnds
    let separator ← Parser.peek
    match separator.kind with
    | .rightParen => pure (some (argument :: arguments))
    | .comma => do
        let _ ← Parser.take
        Parser.skipLineEnds
        pure (some (argument :: arguments))
    | .eof => Parser.fail (.callUnclosed callee) separator.span
    | _ => Parser.fail (.separatorExpected callee separator.found) separator.span

/-- The arguments of a call, from the opening parenthesis on. -/
def parseCall (inner : Nat → Parser (Expr Span)) (callee : Expr Span) : Parser (Expr Span) :=
  match callee with
  | .name text p => do
      let _ ← Parser.take
      Parser.skipLineEnds
      let arguments ← Parser.iterate (parseArgument inner text) []
      let close ← Parser.take
      pure (.call .plain text p arguments.reverse (p.merge close.span))
  | _ => do
      let t ← Parser.peek
      Parser.fail .notCallable t.span

/-- An operator and its right operand after the expression `left`. -/
def parseBinary (inner : Nat → Parser (Expr Span)) (op : Operator) (left : Expr Span) :
    Parser (Expr Span) := do
  let _ ← Parser.take
  let right ← inner op.strength
  pure (.binary op left right (left.place.merge right.place))

/-- What goes on after the expression `left`: a call, or an operator stronger
than `floor`; otherwise `none`. -/
def parseContinuation (inner : Nat → Parser (Expr Span)) (floor : Nat) (left : Expr Span) :
    Parser (Option (Expr Span)) := do
  let t ← Parser.peek
  if t.kind = .leftParen then some <$> parseCall inner left
  else
    match Operator.ofKind? t.kind with
    | some op => if floor < op.strength then some <$> parseBinary inner op left else pure none
    | none => pure none

/-- An operand and all that goes on after it. -/
def parseChain (inner : Nat → Parser (Expr Span)) (floor : Nat) : Parser (Expr Span) := do
  let left ← parseOperand inner
  Parser.iterate (parseContinuation inner floor) left

/-- An expression whose operators are stronger than `floor`, with room for
`room` expressions inside one another. -/
def parse : (room floor : Nat) → Parser (Expr Span)
  | 0, _ => do
      let t ← Parser.peek
      Parser.fail .expressionTooDeep t.span
  | room + 1, floor => parseChain (parse room) floor

end Expr
end Shellward
