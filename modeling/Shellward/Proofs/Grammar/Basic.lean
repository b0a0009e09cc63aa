import Shellward.Script.Basic

/-!
# The grammar of scripts

Which sequences of tokens are scripts, and which tree each of them spells.  A
derivation relates the tokens to come before a phrase, the tree of the phrase and
the tokens to come after it, so the tokens of the phrase are those in between.
Operators are ordered in levels, and each level is associative to the left.

The grammar sets no limit to nesting.  How deep a tree goes is measured apart
from it: an expression by the room it needs, a statement by the blocks around
each of its parts.

Main results:

- Theorem `Expr.Derives.loosen`: what a level derives, every looser level derives.
- Theorems `Expr.Derives.length_lt` and `Expr.Derives.exists_head`: an expression
  has a token, and its first token begins expressions.
-/

namespace Shellward

variable {π : Type}

/-! ### Symbols of the grammar -/

/-- The levels of expressions, the loosest first. -/
inductive Level where
  | equality
  | relational
  | additive
  | multiplicative
  | negation
  | call
deriving DecidableEq, Repr

namespace Level

/-- The next tighter level; nothing is tighter than a call. -/
def tighter : Level → Level
  | .equality => .relational
  | .relational => .additive
  | .additive => .multiplicative
  | .multiplicative => .negation
  | .negation | .call => .call

/-- The number of looser levels. -/
def rank : Level → Nat
  | .equality => 0
  | .relational => 1
  | .additive => 2
  | .multiplicative => 3
  | .negation => 4
  | .call => 5

end Level

namespace Operator

/-- The level of the operations that an operator makes. -/
def level : Operator → Level
  | .equal | .notEqual => .equality
  | .less | .lessEqual | .greater | .greaterEqual => .relational
  | .add | .subtract => .additive
  | .multiply | .divide | .remainder => .multiplicative

/-- The kind of the token that stands for an operator. -/
def symbol : Operator → Token.Kind
  | .equal => .equal
  | .notEqual => .notEqual
  | .less => .less
  | .lessEqual => .lessEqual
  | .greater => .greater
  | .greaterEqual => .greaterEqual
  | .add => .plus
  | .subtract => .minus
  | .multiply => .star
  | .divide => .slash
  | .remainder => .percent

/-- The token of an operator stands for it. -/
theorem ofKind?_symbol (op : Operator) : ofKind? op.symbol = some op := by
  cases op <;> rfl

/-- Only the token of an operator stands for it. -/
theorem symbol_of_ofKind? {kind : Token.Kind} {op : Operator} (h : ofKind? kind = some op) :
    kind = op.symbol := by
  cases kind <;> simp [ofKind?] at h <;> subst h <;> rfl

/-- An operator exceeds exactly the levels looser than its own. -/
theorem rank_level (op : Operator) : op.level.rank + 1 = op.strength := by
  cases op <;> rfl

/-- The level of the right operand has the strength of the operator as its rank. -/
theorem rank_tighter_level (op : Operator) : op.level.tighter.rank = op.strength := by
  cases op <;> rfl

end Operator

/-- The kind of the token that spells a literal. -/
def Literal.symbol : Literal → Token.Kind
  | .string => .string
  | .pattern => .pattern
  | .atom => .atom
  | .number => .number

/-- Between `input` and `rest` there are only line ends. -/
inductive LineEnds : List Token → List Token → Prop where
  | none {rest : List Token} : LineEnds rest rest
  | more {t : Token} {input rest : List Token} :
      t.kind = .newLine → LineEnds input rest → LineEnds (t :: input) rest

/-- The end of a clause: one line end, or nothing before the end mark. -/
inductive Terminator : List Token → List Token → Prop where
  | line {t : Token} {rest : List Token} : t.kind = .newLine → Terminator (t :: rest) rest
  | last {t : Token} {rest : List Token} : t.kind = .eof → Terminator (t :: rest) (t :: rest)

/-! ### Expressions -/

mutual

/-- The expressions of a level. -/
inductive Expr.Derives : Level → List Token → Expr Span → List Token → Prop where
  | literal {t : Token} {rest : List Token} (kind : Literal) :
      t.kind = kind.symbol → Derives .call (t :: rest) (.literal kind t.lexeme t.span) rest
  | name {t : Token} {rest : List Token} :
      t.kind = .identifier → Derives .call (t :: rest) (.name t.lexeme t.span) rest
  | group {left right : Token} {input rest : List Token} {inner : Expr Span} :
      left.kind = .leftParen → Derives .equality input inner (right :: rest) →
      right.kind = .rightParen →
      Derives .call (left :: input) (.group inner (left.span.merge right.span)) rest
  | call {callee left close : Token} {input first rest : List Token}
      {arguments : List (Expr Span)} :
      callee.kind = .identifier → left.kind = .leftParen → LineEnds input first →
      DerivesArguments first arguments close rest →
      Derives .call (callee :: left :: input)
        (.call .plain callee.lexeme callee.span arguments (callee.span.merge close.span)) rest
  | negate {sign : Token} {input rest : List Token} {inner : Expr Span} :
      sign.kind = .minus → Derives .negation input inner rest →
      Derives .negation (sign :: input) (.negate inner (sign.span.merge inner.place)) rest
  | binary {t : Token} {input middle rest : List Token} {left right : Expr Span}
      (op : Operator) :
      Derives op.level input left (t :: middle) → t.kind = op.symbol →
      Derives op.level.tighter middle right rest →
      Derives op.level input (.binary op left right (left.place.merge right.place)) rest
  | tighter {level : Level} {input rest : List Token} {e : Expr Span} :
      Derives level.tighter input e rest → Derives level input e rest

/-- The arguments of a call, up to and with the parenthesis that closes it.
Line ends may follow an argument and a comma, and a comma may follow the last
argument. -/
inductive Expr.DerivesArguments :
    List Token → List (Expr Span) → Token → List Token → Prop where
  | none {close : Token} {rest : List Token} :
      close.kind = .rightParen → DerivesArguments (close :: rest) [] close rest
  | last {close : Token} {input middle rest : List Token} {e : Expr Span} :
      Expr.Derives .equality input e middle → LineEnds middle (close :: rest) →
      close.kind = .rightParen → DerivesArguments input [e] close rest
  | more {comma close : Token} {input middle after next rest : List Token} {e : Expr Span}
      {es : List (Expr Span)} :
      Expr.Derives .equality input e middle → LineEnds middle (comma :: after) →
      comma.kind = .comma → LineEnds after next → DerivesArguments next es close rest →
      DerivesArguments input (e :: es) close rest

end

/-! ### Statements -/

mutual

/-- Statements. -/
inductive Stmt.Derives : List Token → Stmt Span → List Token → Prop where
  | comment {t : Token} {input rest : List Token} :
      t.kind = .comment → Terminator input rest →
      Stmt.Derives (t :: input) (.comment t.lexeme t.span) rest
  | blank {t : Token} {rest : List Token} :
      t.kind = .newLine → Stmt.Derives (t :: rest) (.blank t.span) rest
  | assign {start target sign : Token} {input middle rest : List Token} {value : Expr Span} :
      start.kind = .letWord → target.kind = .identifier → sign.kind = .assign →
      value.Derives .equality input middle → Terminator middle rest →
      Stmt.Derives (start :: target :: sign :: input)
        (.assign target.lexeme target.span value (start.span.merge value.place)) rest
  | cond {start : Token} {input first second third rest : List Token} {test : Expr Span}
      {body : List (Stmt Span)} {place : Span} {alternative : Else Span} :
      start.kind = .ifWord → test.Derives .equality input first →
      Stmt.DerivesBlock first body place second → Else.Derives second alternative third →
      Terminator third rest →
      Stmt.Derives (start :: input)
        (.cond test body place alternative (start.span.merge (alternative.lastPlace place))) rest
  | run {input middle rest : List Token} {value : Expr Span} :
      value.Derives .equality input middle → Terminator middle rest →
      Stmt.Derives input (.run value value.place) rest

/-- Statements one after the other. -/
inductive Stmt.DerivesAll : List Token → List (Stmt Span) → List Token → Prop where
  | nil {rest : List Token} : Stmt.DerivesAll rest [] rest
  | cons {input middle rest : List Token} {s : Stmt Span} {ss : List (Stmt Span)} :
      Stmt.Derives input s middle → Stmt.DerivesAll middle ss rest →
      Stmt.DerivesAll input (s :: ss) rest

/-- Statements in braces, from the line after the opening one on. -/
inductive Stmt.DerivesBlock :
    List Token → List (Stmt Span) → Span → List Token → Prop where
  | braces {left line right : Token} {input rest : List Token} {body : List (Stmt Span)} :
      left.kind = .leftBrace → line.kind = .newLine →
      Stmt.DerivesAll input body (right :: rest) → right.kind = .rightBrace →
      Stmt.DerivesBlock (left :: line :: input) body (left.span.merge right.span) rest

/-- What follows the body of a conditional. -/
inductive Else.Derives : List Token → Else Span → List Token → Prop where
  | absent {rest : List Token} : Else.Derives rest .absent rest
  | block {word : Token} {input rest : List Token} {body : List (Stmt Span)} {place : Span} :
      word.kind = .elseWord → Stmt.DerivesBlock input body place rest →
      Else.Derives (word :: input) (.block body place) rest
  | elseIf {word start : Token} {input first second rest : List Token} {test : Expr Span}
      {body : List (Stmt Span)} {place : Span} {alternative : Else Span} :
      word.kind = .elseWord → start.kind = .ifWord → test.Derives .equality input first →
      Stmt.DerivesBlock first body place second → Else.Derives second alternative rest →
      Else.Derives (word :: start :: input) (.elseIf test body place alternative) rest

end

/-- The tokens of a script are those of its statements and the end mark. -/
def Script.Derives (tokens : List Token) (s : Script Span) : Prop :=
  ∃ t : Token, t.kind = .eof ∧ Stmt.DerivesAll tokens s.statements [t]

/-! ### Nesting -/

mutual

/-- The room for nesting that an expression needs.  An operation needs no more
room than its left operand, so that a long chain of operators is not deep. -/
def Expr.need : Expr π → Nat
  | .literal .. | .name .. => 1
  | .call _ _ _ arguments _ => 1 + Expr.needAll arguments
  | .binary _ left right _ => max left.need (1 + right.need)
  | .negate inner _ | .group inner _ => 1 + inner.need

/-- The room for nesting that the greediest of several expressions needs. -/
def Expr.needAll : List (Expr π) → Nat
  | [] => 0
  | e :: es => max e.need (Expr.needAll es)

end

mutual

/-- Inside `blocks` blocks, a statement keeps to a limit: there are no more blocks
around any part of it, and none of its expressions needs more room than they leave. -/
def Stmt.Within (limit blocks : Nat) : Stmt π → Prop
  | .comment .. | .blank _ => blocks ≤ limit
  | .assign _ _ value _ | .run value _ => blocks + value.need ≤ limit
  | .cond test body _ alternative _ =>
      blocks + test.need ≤ limit ∧ blocks + 1 ≤ limit ∧
        Stmt.AllWithin limit (blocks + 1) body ∧ alternative.Within limit blocks

/-- Inside `blocks` blocks, every statement keeps to a limit. -/
def Stmt.AllWithin (limit blocks : Nat) : List (Stmt π) → Prop
  | [] => True
  | s :: ss => s.Within limit blocks ∧ Stmt.AllWithin limit blocks ss

/-- Inside `blocks` blocks, what follows the body of a conditional keeps to a limit. -/
def Else.Within (limit blocks : Nat) : Else π → Prop
  | .absent => True
  | .block body _ => blocks + 1 ≤ limit ∧ Stmt.AllWithin limit (blocks + 1) body
  | .elseIf test body _ rest =>
      blocks + test.need ≤ limit ∧ blocks + 1 ≤ limit ∧
        Stmt.AllWithin limit (blocks + 1) body ∧ rest.Within limit blocks

end

/-- No statement of a script goes deeper than a limit. -/
def Script.Within (limit : Nat) (s : Script π) : Prop :=
  Stmt.AllWithin limit 0 s.statements

/-! ### Laws of the levels -/

namespace Level

/-- Below the level of calls, the next tighter level has one more looser level. -/
theorem rank_tighter {level : Level} (h : level.rank < Level.call.rank) :
    level.tighter.rank = level.rank + 1 := by
  cases level <;> simp_all [tighter, rank]

/-- A tighter level has no fewer looser ones. -/
theorem rank_le_tighter (level : Level) : level.rank ≤ level.tighter.rank := by
  cases level <;> decide

/-- A level is known by its rank. -/
theorem eq_of_rank_eq {l m : Level} (h : l.rank = m.rank) : l = m := by
  cases l <;> cases m <;> simp_all [rank]

/-- Calls are the tightest level. -/
theorem rank_le_call (level : Level) : level.rank ≤ Level.call.rank := by
  cases level <;> decide

end Level

namespace Expr

/-- Every expression needs some room. -/
theorem one_le_need (e : Expr π) : 1 ≤ e.need := by
  cases e <;> simp only [need] <;> omega

/-- What a level derives, every looser level derives. -/
theorem Derives.loosen {l m : Level} {input rest : List Token} {e : Expr Span}
    (h : Derives m input e rest) (hle : l.rank ≤ m.rank) : Derives l input e rest := by
  induction hn : m.rank - l.rank generalizing l with
  | zero =>
      have heq : l = m := Level.eq_of_rank_eq (by omega)
      rw [heq]
      exact h
  | succ n ih =>
      have hlt : l.rank < Level.call.rank := by
        have := m.rank_le_call
        omega
      have hrank := Level.rank_tighter hlt
      exact .tighter (ih (by omega) (by omega))

/-! ### First tokens and lengths -/

/-- The kinds of token that can begin an expression. -/
def Begins : Token.Kind → Prop
  | .identifier | .number | .string | .pattern | .atom | .minus | .leftParen => True
  | _ => False

/-- An expression begins with a token that can begin one. -/
theorem Derives.exists_head : ∀ {level : Level} {input rest : List Token} {e : Expr Span},
    Derives level input e rest → ∃ t ts, input = t :: ts ∧ Begins t.kind
  | _, _, _, _, .literal kind hkind => ⟨_, _, rfl, by rw [hkind]; cases kind <;> trivial⟩
  | _, _, _, _, .name hkind => ⟨_, _, rfl, by rw [hkind]; trivial⟩
  | _, _, _, _, .group hleft _ _ => ⟨_, _, rfl, by rw [hleft]; trivial⟩
  | _, _, _, _, .call hcallee _ _ _ => ⟨_, _, rfl, by rw [hcallee]; trivial⟩
  | _, _, _, _, .negate hsign _ => ⟨_, _, rfl, by rw [hsign]; trivial⟩
  | _, _, _, _, .binary _ hleft _ _ => hleft.exists_head
  | _, _, _, _, .tighter h => h.exists_head

/-- The arguments of a call begin with an expression or are none. -/
theorem DerivesArguments.exists_head {input rest : List Token} {es : List (Expr Span)}
    {close : Token} (h : DerivesArguments input es close rest) :
    ∃ t ts, input = t :: ts ∧ (t.kind = .rightParen ∨ Begins t.kind) := by
  cases h with
  | none hclose => exact ⟨_, _, rfl, .inl hclose⟩
  | last h _ _ | more h _ _ _ _ =>
      rcases h.exists_head with ⟨t, ts, heq, hbegins⟩
      exact ⟨t, ts, heq, .inr hbegins⟩

/-- A call is closed by a parenthesis. -/
theorem DerivesArguments.kind_close : ∀ {input rest : List Token} {es : List (Expr Span)}
    {close : Token}, DerivesArguments input es close rest → close.kind = .rightParen
  | _, _, _, _, .none hclose | _, _, _, _, .last _ _ hclose => hclose
  | _, _, _, _, .more _ _ _ _ hmore => hmore.kind_close

/-- Before the parenthesis that closes the call there are no arguments. -/
theorem DerivesArguments.of_rightParen {t close : Token} {ts rest : List Token}
    {es : List (Expr Span)} (h : DerivesArguments (t :: ts) es close rest)
    (ht : t.kind = .rightParen) : es = [] ∧ close = t ∧ rest = ts := by
  cases h with
  | none _ => exact ⟨rfl, rfl, rfl⟩
  | last h _ _ | more h _ _ _ _ =>
      rcases h.exists_head with ⟨u, us, heq, hbegins⟩
      simp only [List.cons.injEq] at heq
      rw [← heq.1, ht] at hbegins
      exact hbegins.elim

end Expr

theorem LineEnds.length_le {input rest : List Token} (h : LineEnds input rest) :
    rest.length ≤ input.length := by
  induction h with
  | none => exact Nat.le_refl _
  | more _ _ ih =>
      rw [List.length_cons]
      omega

/-- Past line ends, the end of the input is left. -/
theorem LineEnds.suffix {input rest : List Token} (h : LineEnds input rest) : rest <:+ input := by
  induction h with
  | none => exact List.suffix_rfl
  | more _ _ ih => exact ih.trans (List.suffix_cons _ _)

/-- Past the end of a clause, the end of the input is left. -/
theorem Terminator.suffix {input rest : List Token} (h : Terminator input rest) :
    rest <:+ input := by
  cases h with
  | line _ => exact List.suffix_cons _ _
  | last _ => exact List.suffix_rfl

theorem Terminator.length_le {input rest : List Token} (h : Terminator input rest) :
    rest.length ≤ input.length := by
  cases h with
  | line _ => simp
  | last _ => exact Nat.le_refl _

namespace Expr

mutual

/-- An expression has a token. -/
theorem Derives.length_lt : ∀ {level : Level} {input rest : List Token} {e : Expr Span},
    Derives level input e rest → rest.length < input.length
  | _, _, _, _, .literal _ _ | _, _, _, _, .name _ => by simp
  | _, _, _, _, .group _ h _ => by
      have := h.length_lt
      simp only [List.length_cons] at this ⊢
      omega
  | _, _, _, _, .call _ _ hends h => by
      have := hends.length_le
      have := h.length_lt
      simp only [List.length_cons]
      omega
  | _, _, _, _, .negate _ h => by
      have := h.length_lt
      simp only [List.length_cons]
      omega
  | _, _, _, _, .binary _ hleft _ hright => by
      have := hleft.length_lt
      have := hright.length_lt
      simp only [List.length_cons] at *
      omega
  | _, _, _, _, .tighter h => h.length_lt

/-- The arguments of a call have at least the token that closes it. -/
theorem DerivesArguments.length_lt : ∀ {input rest : List Token} {es : List (Expr Span)}
    {close : Token}, DerivesArguments input es close rest → rest.length < input.length
  | _, _, _, _, .none _ => by simp
  | _, _, _, _, .last h hends _ => by
      have := h.length_lt
      have := hends.length_le
      simp only [List.length_cons] at this
      omega
  | _, _, _, _, .more h hends _ hafter hmore => by
      have := h.length_lt
      have := hends.length_le
      have := hafter.length_le
      have := hmore.length_lt
      simp only [List.length_cons] at *
      omega

end

mutual

/-- The tokens after an expression are among those it begins with. -/
theorem Derives.suffix : ∀ {level : Level} {input rest : List Token} {e : Expr Span},
    Derives level input e rest → rest <:+ input
  | _, _, _, _, .literal _ _ | _, _, _, _, .name _ => List.suffix_cons _ _
  | _, _, _, _, .group _ h _ =>
      ((List.suffix_cons _ _).trans h.suffix).trans (List.suffix_cons _ _)
  | _, _, _, _, .call _ _ hends h =>
      (((h.suffix.trans hends.suffix).trans (List.suffix_cons _ _)).trans (List.suffix_cons _ _))
  | _, _, _, _, .negate _ h => h.suffix.trans (List.suffix_cons _ _)
  | _, _, _, _, .binary _ hleft _ hright =>
      (hright.suffix.trans (List.suffix_cons _ _)).trans hleft.suffix
  | _, _, _, _, .tighter h => h.suffix

/-- Past the arguments of a call, the end of the input is left. -/
theorem DerivesArguments.suffix : ∀ {input rest : List Token} {es : List (Expr Span)}
    {close : Token}, DerivesArguments input es close rest → rest <:+ input
  | _, _, _, _, .none _ => List.suffix_cons _ _
  | _, _, _, _, .last h hends _ => ((List.suffix_cons _ _).trans hends.suffix).trans h.suffix
  | _, _, _, _, .more h hends _ hafter hmore =>
      (((hmore.suffix.trans hafter.suffix).trans (List.suffix_cons _ _)).trans
        hends.suffix).trans h.suffix

end

/-- The parenthesis that closes a call stands before what follows it. -/
theorem DerivesArguments.close_suffix : ∀ {input rest : List Token} {es : List (Expr Span)}
    {close : Token}, DerivesArguments input es close rest → close :: rest <:+ input
  | _, _, _, _, .none _ => List.suffix_rfl
  | _, _, _, _, .last h hends _ => hends.suffix.trans h.suffix
  | _, _, _, _, .more h hends _ hafter hmore =>
      (((hmore.close_suffix.trans hafter.suffix).trans (List.suffix_cons _ _)).trans
        hends.suffix).trans h.suffix

/-- A name is spelt by one token. -/
theorem Derives.of_name : ∀ {level : Level} {input rest : List Token} {e : Expr Span},
    Derives level input e rest → ∀ text place, e = .name text place →
      ∃ t : Token, t.kind = .identifier ∧ input = t :: rest ∧ text = t.lexeme ∧ place = t.span
  | _, _, _, _, .name hkind => by
      intro text place heq
      simp only [name.injEq] at heq
      exact ⟨_, hkind, rfl, heq.1.symm, heq.2.symm⟩
  | _, _, _, _, .tighter h => h.of_name
  | _, _, _, _, .literal _ _ | _, _, _, _, .group _ _ _ | _, _, _, _, .call _ _ _ _
  | _, _, _, _, .negate _ _ | _, _, _, _, .binary _ _ _ _ => by
      intro text place heq
      simp at heq

/-- An equals sign does not stand inside an expression, so after a name at its
beginning it can only follow the expression. -/
theorem Derives.rest_eq_of_assign : ∀ {level : Level} {input rest : List Token} {e : Expr Span},
    Derives level input e rest → ∀ t u ts, input = t :: u :: ts → t.kind = .identifier →
      u.kind = .assign → rest = u :: ts
  | _, _, _, _, .literal _ _ | _, _, _, _, .name _ => by
      intro t u ts heq _ _
      exact (List.cons.inj heq).2
  | _, _, _, _, .group hkind _ _ | _, _, _, _, .negate hkind _ => by
      intro t u ts heq ht _
      rw [(List.cons.inj heq).1, ht] at hkind
      simp at hkind
  | _, _, _, _, .call _ hleft _ _ => by
      intro t u ts heq _ hu
      rw [(List.cons.inj (List.cons.inj heq).2).1, hu] at hleft
      simp at hleft
  | _, _, _, _, .binary op hleft hsymbol _ => by
      intro t u ts heq ht hu
      have hnext := hleft.rest_eq_of_assign t u ts heq ht hu
      rw [(List.cons.inj hnext).1, hu] at hsymbol
      cases op <;> simp [Operator.symbol] at hsymbol
  | _, _, _, _, .tighter h => h.rest_eq_of_assign

end Expr

mutual

/-- A statement has a token. -/
theorem Stmt.Derives.length_lt : ∀ {input rest : List Token} {s : Stmt Span},
    Stmt.Derives input s rest → rest.length < input.length
  | _, _, _, .comment _ hend => by
      have := hend.length_le
      simp only [List.length_cons]
      omega
  | _, _, _, .blank _ => by simp
  | _, _, _, .assign _ _ _ hvalue hend => by
      have := hvalue.length_lt
      have := hend.length_le
      simp only [List.length_cons]
      omega
  | _, _, _, .cond _ htest hbody halternative hend => by
      have := htest.length_lt
      have := hbody.length_lt
      have := halternative.length_le
      have := hend.length_le
      simp only [List.length_cons]
      omega
  | _, _, _, .run hvalue hend => by
      have := hvalue.length_lt
      have := hend.length_le
      omega

/-- Past several statements there are no more tokens than before; there may be no statement. -/
theorem Stmt.DerivesAll.length_le : ∀ {input rest : List Token} {ss : List (Stmt Span)},
    Stmt.DerivesAll input ss rest → rest.length ≤ input.length
  | _, _, _, .nil => Nat.le_refl _
  | _, _, _, .cons h hmore => by
      have := h.length_lt
      have := hmore.length_le
      omega

/-- A block has a token. -/
theorem Stmt.DerivesBlock.length_lt : ∀ {input rest : List Token} {body : List (Stmt Span)}
    {place : Span}, Stmt.DerivesBlock input body place rest → rest.length < input.length
  | _, _, _, _, .braces _ _ hbody _ => by
      have := hbody.length_le
      simp only [List.length_cons] at *
      omega

/-- Past what follows the body of a conditional there are no more tokens than before. -/
theorem Else.Derives.length_le : ∀ {input rest : List Token} {a : Else Span},
    Else.Derives input a rest → rest.length ≤ input.length
  | _, _, _, .absent => Nat.le_refl _
  | _, _, _, .block _ hbody => by
      have := hbody.length_lt
      simp only [List.length_cons]
      omega
  | _, _, _, .elseIf _ _ htest hbody hrest => by
      have := htest.length_lt
      have := hbody.length_lt
      have := hrest.length_le
      simp only [List.length_cons]
      omega

end

mutual

/-- The tokens after a statement are among those it begins with. -/
theorem Stmt.Derives.suffix : ∀ {input rest : List Token} {s : Stmt Span},
    Stmt.Derives input s rest → rest <:+ input
  | _, _, _, .comment _ hend => hend.suffix.trans (List.suffix_cons _ _)
  | _, _, _, .blank _ => List.suffix_cons _ _
  | _, _, _, .assign _ _ _ hvalue hend =>
      ((((hend.suffix.trans hvalue.suffix).trans (List.suffix_cons _ _)).trans
        (List.suffix_cons _ _)).trans (List.suffix_cons _ _))
  | _, _, _, .cond _ htest hbody halternative hend =>
      ((((hend.suffix.trans halternative.suffix).trans hbody.suffix).trans htest.suffix).trans
        (List.suffix_cons _ _))
  | _, _, _, .run hvalue hend => hend.suffix.trans hvalue.suffix

/-- Past several statements, the end of the input is left. -/
theorem Stmt.DerivesAll.suffix : ∀ {input rest : List Token} {ss : List (Stmt Span)},
    Stmt.DerivesAll input ss rest → rest <:+ input
  | _, _, _, .nil => List.suffix_rfl
  | _, _, _, .cons h hmore => hmore.suffix.trans h.suffix

/-- Past a block, the end of the input is left. -/
theorem Stmt.DerivesBlock.suffix : ∀ {input rest : List Token} {body : List (Stmt Span)}
    {place : Span}, Stmt.DerivesBlock input body place rest → rest <:+ input
  | _, _, _, _, .braces _ _ hbody _ =>
      ((((List.suffix_cons _ _).trans hbody.suffix).trans (List.suffix_cons _ _)).trans
        (List.suffix_cons _ _))

/-- Past what follows the body of a conditional, the end of the input is left. -/
theorem Else.Derives.suffix : ∀ {input rest : List Token} {a : Else Span},
    Else.Derives input a rest → rest <:+ input
  | _, _, _, .absent => List.suffix_rfl
  | _, _, _, .block _ hbody => hbody.suffix.trans (List.suffix_cons _ _)
  | _, _, _, .elseIf _ _ htest hbody hrest =>
      ((((hrest.suffix.trans hbody.suffix).trans htest.suffix).trans (List.suffix_cons _ _)).trans
        (List.suffix_cons _ _))

end

end Shellward
