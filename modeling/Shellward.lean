import Shellward.Compile
import Shellward.Script.Equality
import Shellward.Proofs.Acceptance
import Shellward.Proofs.Grammar.Basic
import Shellward.Proofs.Grammar.Expressions
import Shellward.Proofs.Grammar.Statements
import Shellward.Proofs.Grammar.Scripts
import Shellward.Proofs.Grammar.Names
import Shellward.Proofs.Script.Flattening
import Shellward.Proofs.Token.Rescan
import Shellward.Proofs.Script.Reprint
import Shellward.Proofs.Script.Formatting
import Shellward.Proofs.Script.Arithmetic
import Shellward.Proofs.Script.Parts
import Shellward.Proofs.Script.FlatForm
import Shellward.Proofs.Script.Expressing
import Shellward.Proofs.Script.Misuse
import Shellward.Proofs.Script.Roots
import Shellward.Proofs.Script.Scoping
import Shellward.Proofs.Script.Conditions
import Shellward.Proofs.Relocation
import Shellward.Proofs.Token.Tiling
import Shellward.Proofs.Grammar.Relocation
import Shellward.Proofs.Grammar.Phrases
import Shellward.Proofs.Token.Lines
import Shellward.Proofs.Grammar.Lines
import Shellward.Proofs.Script.Concatenation
import Shellward.Proofs.LineMap
import Shellward.Proofs.Script.LineEndings
import Shellward.Proofs.Script.Temporaries
import Shellward.Proofs.Script.Erasing
import Shellward.Proofs.Script.Substitution
import Shellward.Proofs.Script.Translating
import Shellward.Proofs.Session
import Shellward.Proofs.Token.Cutting
import Shellward.Proofs.Grammar.Nodes
import Shellward.Proofs.Script.Slices
import Shellward.Proofs.Forward
import Shellward.Proofs.Grammar.Recovery
import Shellward.Proofs.Grammar.Nesting
import Shellward.Proofs.Script.Marks
import Shellward.Proofs.Shell.Bodies
import Shellward.Proofs.Grammar.Literals
import Shellward.Proofs.Script.Visibility
import Shellward.Proofs.Shell.Replacements
import Shellward.Proofs.Script.Replacement
import Shellward.Proofs.Token.Parentheses
import Shellward.Proofs.Grammar.Reports
import Shellward.Proofs.Grammar.Salvage
import Shellward.Proofs.Grammar.Progress
import Shellward.Proofs.Script.Outline
import Shellward.Proofs.Script.Spans
import Shellward.Proofs.Grammar.Remarks
import Shellward.Proofs.Script.EmittedLines
import Shellward.Proofs.Token.Classes
import Shellward.Proofs.Excerpts
import Shellward.Proofs.EditDistance
import Shellward.Proofs.Suggestions
