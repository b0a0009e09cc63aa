import Shellward.Compile
import Shellward.Proofs.Token.Spelling
import Shellward.Proofs.Yield

/-!
# How trees grow

A reader makes a tree from tokens and from the trees that smaller readers make.  So what holds
of the trees that tokens are, and is handed on from the parts of a tree to the tree, holds of
every tree that is read, also of one with mistakes.  Each property may depend on the room that
a reader has: the parts of an expression are read with one less, only its left operand with as
much.

Main results:

- Theorem `Expr.Grown.parse_yields`: expressions have the properties that are handed on.
- Theorem `Stmt.Grown.parseAll_yields`: statements have the properties that are handed on.
- Theorem `Stmt.Grown.read`: so do the statements of every script that is read.
-/

namespace Shellward

open Shellward.Parser

/-! ### Expressions -/

namespace Expr

/-- A property of expressions that is handed on from the parts of an expression to the
expression. -/
structure Grown (S : Token → Prop) (E : Nat → Expr Span → Prop) : Prop where
  token : ∀ {room : Nat} {t : Token} {e : Expr Span}, S t → ofToken? t = some e → E (room + 1) e
  negate : ∀ {room : Nat} {e : Expr Span} {p : Span}, E room e → E (room + 1) (.negate e p)
  group : ∀ {room : Nat} {e : Expr Span} {p : Span}, E room e → E (room + 1) (.group e p)
  call : ∀ {room : Nat} {text : String} {cp p : Span} {arguments : List (Expr Span)},
    E (room + 1) (.name text cp) → (∀ e ∈ arguments, E room e) →
      E (room + 1) (.call .plain text cp arguments p)
  binary : ∀ {room : Nat} {op : Operator} {left right : Expr Span} {p : Span},
    E (room + 1) left → E room right → E (room + 1) (.binary op left right p)

namespace Grown

variable {S : Token → Prop} {E : Nat → Expr Span → Prop} (hE : Grown S E)
variable {room : Nat} {inner : Nat → Parser (Expr Span)}
variable (hinner : ∀ floor, Yields S (inner floor) (E room))
include hE hinner

/-- An operand has the property if what is read inside it does. -/
theorem parseOperand_yields : Yields S (parseOperand inner) (E (room + 1)) := by
  apply Yields.peek.bind
  intro t ht
  split
  · rename_i e he
    apply Yields.take.bind
    intro _ _
    exact .pure (hE.token ht he)
  · split
    · apply Yields.take.bind
      intro sign _
      apply (hinner _).bind
      intro operand hoperand
      exact .pure (hE.negate hoperand)
    · apply Yields.take.bind
      intro left _
      apply (hinner _).bind
      intro body hbody
      apply (Yields.require _ _).bind
      intro right _
      exact .pure (hE.group hbody)
    · exact .fail _ _
    · exact .fail _ _

omit hE in
/-- The arguments have the property after one more of them. -/
theorem parseArgument_yields (callee : String) {arguments : List (Expr Span)}
    (harguments : ∀ e ∈ arguments, E room e) :
    Yields S (parseArgument inner callee arguments)
      (fun o => ∀ es, o = some es → ∀ e ∈ es, E room e) := by
  apply Yields.peek.bind
  intro t _
  split
  · exact .pure (by simp)
  · apply (hinner _).bind
    intro argument hargument
    apply (Yields.skipWhile _).bind
    intro _ _
    apply Yields.peek.bind
    intro separator _
    have hmore : ∀ es, some (argument :: arguments) = some es → ∀ e ∈ es, E room e := by
      intro es hes
      rw [← Option.some.inj hes]
      exact List.forall_mem_cons.mpr ⟨hargument, harguments⟩
    split
    · exact .pure hmore
    · apply Yields.take.bind
      intro _ _
      apply (Yields.skipWhile _).bind
      intro _ _
      exact .pure hmore
    · exact .fail _ _
    · exact .fail _ _

/-- A call has the property if its callee and its arguments do. -/
theorem parseCall_yields {callee : Expr Span} (hcallee : E (room + 1) callee) :
    Yields S (parseCall inner callee) (E (room + 1)) := by
  cases callee with
  | name text p =>
      apply Yields.take.bind
      intro _ _
      apply (Yields.skipWhile _).bind
      intro _ _
      have hloop : Yields S (iterate (parseArgument inner text) [])
          (fun es => ∀ e ∈ es, E room e) :=
        Yields.iterate (fun _ => parseArgument_yields hinner text) (by simp)
      apply hloop.bind
      intro arguments harguments
      apply Yields.take.bind
      intro close _
      have hreverse : ∀ e ∈ arguments.reverse, E room e :=
        fun e he => harguments e (List.mem_reverse.mp he)
      exact .pure (hE.call hcallee hreverse)
  | literal | call | binary | negate | group =>
      apply Yields.peek.bind
      intro t _
      exact .fail _ _

/-- One more operator or call hands the property on. -/
theorem parseContinuation_yields (floor : Nat) {left : Expr Span} (hleft : E (room + 1) left) :
    Yields S (parseContinuation inner floor left)
      (fun o => ∀ e, o = some e → E (room + 1) e) := by
  have hsome : ∀ e : Expr Span, E (room + 1) e → ∀ e', some e = some e' → E (room + 1) e' := by
    intro e he e' heq
    rw [← Option.some.inj heq]
    exact he
  apply Yields.peek.bind
  intro t _
  split
  · exact (hE.parseCall_yields hinner hleft).map hsome
  · split
    · split
      · refine Yields.map ?_ hsome
        apply Yields.take.bind
        intro _ _
        apply (hinner _).bind
        intro right hright
        exact .pure (hE.binary hleft hright)
      · exact .pure (by simp)
    · exact .pure (by simp)

omit hinner

/-- Expressions have the properties that are handed on. -/
theorem parse_yields (room floor : Nat) : Yields S (parse room floor) (E room) := by
  induction room generalizing floor with
  | zero =>
      apply Yields.peek.bind
      intro t _
      exact .fail _ _
  | succ room ih =>
      apply (hE.parseOperand_yields ih).bind
      intro left hleft
      exact Yields.iterate (fun _ => hE.parseContinuation_yields ih floor) hleft

end Grown
end Expr

/-! ### Statements -/

namespace Stmt

/-- Properties of expressions, of statements and of what follows the body of a conditional
that are handed on from the parts of a statement to the statement. -/
structure Grown (S : Token → Prop) (E : Nat → Expr Span → Prop) (T : Nat → Stmt Span → Prop)
    (A : Nat → Else Span → Prop) : Prop where
  expression : Expr.Grown S E
  comment : ∀ {room : Nat} {text : String} {p : Span}, T room (.comment text p)
  blank : ∀ {room : Nat} {p : Span}, T room (.blank p)
  assign : ∀ {room : Nat} {t : Token} {value : Expr Span} {p : Span},
    S t → t.kind = .identifier → E room value → T room (.assign t.lexeme t.span value p)
  run : ∀ {room : Nat} {value : Expr Span} {p : Span}, E room value → T room (.run value p)
  cond : ∀ {room : Nat} {test : Expr Span} {body : List (Stmt Span)} {bp p : Span}
      {alternative : Else Span},
    E (room + 1) test → (∀ s ∈ body, T room s) → A (room + 1) alternative →
      T (room + 1) (.cond test body bp alternative p)
  absent : ∀ {room : Nat}, A room .absent
  block : ∀ {room : Nat} {body : List (Stmt Span)} {bp : Span},
    (∀ s ∈ body, T room s) → A (room + 1) (.block body bp)
  elseIf : ∀ {room : Nat} {test : Expr Span} {body : List (Stmt Span)} {bp : Span}
      {rest : Else Span},
    E (room + 1) test → (∀ s ∈ body, T room s) → A (room + 1) rest →
      A (room + 1) (.elseIf test body bp rest)

theorem parseLineEnd_yields {S : Token → Prop} (after : Clause) (keyword : Option String) :
    Yields S (parseLineEnd after keyword) (fun _ => True) := by
  apply Yields.peek.bind
  intro t _
  split
  · apply Yields.take.bind
    intro _ _
    exact .pure trivial
  · exact .pure trivial
  · exact .fail _ _

/-- The target of an assignment is a name among the tokens. -/
theorem parseTarget_yields {S : Token → Prop} :
    Yields S parseTarget (fun t => S t ∧ t.kind = .identifier) := by
  apply Yields.look
  intro t ht
  split
  · rename_i hkind
    exact .take ⟨ht, hkind⟩
  · exact (Yields.fail _ _).at_token t
  · exact (Yields.fail _ _).at_token t

theorem resume_yields {S : Token → Prop} (inBlock : Bool) :
    Yields S (resume inBlock) (fun _ => True) := by
  apply Yields.peek.bind
  intro found _
  apply (Yields.skipWhile _).bind
  intro _ _
  apply Yields.peek.bind
  intro t _
  split
  · apply Yields.take.bind
    intro _ _
    exact .pure trivial
  · exact .pure trivial

namespace Grown

variable {S : Token → Prop} {E : Nat → Expr Span → Prop} {T : Nat → Stmt Span → Prop}
variable {A : Nat → Else Span → Prop} (h : Grown S E T A)
variable {room : Nat} {expression : Parser (Expr Span)} {contents : Parser (List (Stmt Span))}

section Blocks

/-- The reader of the contents of a block, which needs some room of its own. -/
def YieldsContents (S : Token → Prop) (T : Nat → Stmt Span → Prop) (room : Nat)
    (contents : Parser (List (Stmt Span))) : Prop :=
  Yields S contents fun body => ∃ inside, room = inside + 1 ∧ ∀ s ∈ body, T inside s

variable (hexpression : Yields S expression (E room)) (hcontents : YieldsContents S T room contents)

include hcontents in
/-- A block needs room, and its statements have the property in the room that is left. -/
theorem parseBlock_yields :
    Yields S (parseBlock contents)
      (fun b => ∃ inside, room = inside + 1 ∧ ∀ s ∈ b.1, T inside s) := by
  apply (Yields.require _ _).bind
  intro start _
  apply (Yields.require _ _).bind
  intro _ _
  apply Yields.bind hcontents
  intro body hbody
  apply Yields.peek.bind
  intro t _
  split
  · apply Yields.take.bind
    intro close _
    exact .pure hbody
  · exact .fail _ _

/-- What a branch of a conditional hands on. -/
def Branch (E : Nat → Expr Span → Prop) (T : Nat → Stmt Span → Prop) (room : Nat)
    (b : Expr Span × List (Stmt Span) × Span) : Prop :=
  E room b.1 ∧ ∃ inside, room = inside + 1 ∧ ∀ s ∈ b.2.1, T inside s

include hexpression hcontents

/-- A condition and its block have the property. -/
theorem parseBranch_yields : Yields S (parseBranch expression contents) (Branch E T room) := by
  apply hexpression.bind
  intro test htest
  apply (parseBlock_yields hcontents).bind
  intro block hblock
  have hbranch : Branch E T room (test, block.1, block.2) := ⟨htest, hblock⟩
  exact .pure hbranch

/-- The conditions have the property after one more of them. -/
theorem parseElseIf_yields {branches : List (Expr Span × List (Stmt Span) × Span)}
    (hbranches : ∀ b ∈ branches, Branch E T room b) :
    Yields S (parseElseIf expression contents branches)
      (fun o => ∀ bs, o = some bs → ∀ b ∈ bs, Branch E T room b) := by
  apply Yields.peek.bind
  intro first _
  apply Yields.peekNext.bind
  intro second _
  split
  · apply Yields.take.bind
    intro _ _
    apply Yields.take.bind
    intro _ _
    apply (parseBranch_yields hexpression hcontents).bind
    intro branch hbranch
    apply Yields.pure
    intro bs hbs
    rw [← Option.some.inj hbs]
    exact List.forall_mem_cons.mpr ⟨hbranch, hbranches⟩
  · exact .pure (by simp)

end Blocks

include h

/-- Conditions that have the property and what follows them make alternatives that do. -/
theorem ofBranches {last : Else Span} (hlast : A room last)
    {branches : List (Expr Span × List (Stmt Span) × Span)}
    (hbranches : ∀ b ∈ branches, Branch E T room b) : A room (Else.ofBranches last branches) := by
  induction branches with
  | nil => exact hlast
  | cons b bs ih =>
      rcases List.forall_mem_cons.mp hbranches with ⟨⟨htest, inside, rfl, hbody⟩, hbs⟩
      exact h.elseIf htest hbody (ih hbs)

section Statements

variable (hexpression : Yields S expression (E room)) (hcontents : YieldsContents S T room contents)

include hcontents in
/-- The last block of a conditional has the property. -/
theorem parseOtherwise_yields : Yields S (parseOtherwise contents) (A room) := by
  apply Yields.peek.bind
  intro t _
  split
  · apply Yields.take.bind
    intro _ _
    apply (parseBlock_yields hcontents).bind
    rintro ⟨body, place⟩ ⟨inside, rfl, hbody⟩
    exact .pure (h.block hbody)
  · exact .pure h.absent

include hexpression

/-- An assignment has the property if its value does. -/
theorem parseAssign_yields : Yields S (parseAssign expression) (T room) := by
  apply Yields.take.bind
  intro start _
  apply parseTarget_yields.bind
  intro target htarget
  apply (Yields.require _ _).bind
  intro _ _
  apply hexpression.bind
  intro value hvalue
  apply (parseLineEnd_yields _ _).bind
  intro _ _
  exact .pure (h.assign htarget.1 htarget.2 hvalue)

/-- An expression on a line of its own hands the property on. -/
theorem parseRun_yields : Yields S (parseRun expression) (T room) := by
  apply Yields.peek.bind
  intro t _
  apply Yields.peekNext.bind
  intro next _
  split
  · exact .fail _ _
  · split
    · exact .fail _ _
    · apply hexpression.bind
      intro value hvalue
      apply (parseLineEnd_yields _ _).bind
      intro _ _
      exact .pure (h.run hvalue)

include hcontents

/-- A conditional has the property if its branches do. -/
theorem parseCond_yields : Yields S (parseCond expression contents) (T room) := by
  apply Yields.take.bind
  intro start _
  apply (parseBranch_yields hexpression hcontents).bind
  rintro ⟨test, body, place⟩ ⟨htest, inside, hroom, hbody⟩
  have hloop : Yields S (iterate (parseElseIf expression contents) [])
      (fun bs => ∀ b ∈ bs, Branch E T room b) :=
    Yields.iterate (fun _ => parseElseIf_yields hexpression hcontents) (by simp)
  apply hloop.bind
  intro branches hbranches
  apply (h.parseOtherwise_yields hcontents).bind
  intro last hlast
  apply (parseLineEnd_yields _ _).bind
  intro _ _
  have hreverse : ∀ b ∈ branches.reverse, Branch E T room b :=
    fun b hb => hbranches b (List.mem_reverse.mp hb)
  have halternative := h.ofBranches hlast hreverse
  subst hroom
  exact .pure (h.cond htest hbody halternative)

/-- A statement has the property if what is read inside it does. -/
theorem parse_yields : Yields S (parse expression contents) (T room) := by
  apply Yields.peek.bind
  intro t _
  split
  · apply Yields.take.bind
    intro _ _
    apply (parseLineEnd_yields _ _).bind
    intro _ _
    exact .pure h.comment
  · apply Yields.take.bind
    intro _ _
    exact .pure h.blank
  · exact h.parseAssign_yields hexpression
  · exact h.parseCond_yields hexpression hcontents
  · exact h.parseRun_yields hexpression

end Statements

omit h in
/-- The statements have the property after one more of them, or after a mistake. -/
theorem parseNext_yields (inBlock : Bool) {statement : Parser (Stmt Span)}
    (hstatement : Yields S statement (T room)) {statements : List (Stmt Span)}
    (hstatements : ∀ s ∈ statements, T room s) :
    Yields S (parseNext inBlock statement statements)
      (fun o => ∀ ss, o = some ss → ∀ s ∈ ss, T room s) := by
  apply Yields.peek.bind
  intro t _
  split
  · exact .pure (by simp)
  · apply hstatement.attempt.bind
    intro result hresult
    split
    · rename_i s
      apply Yields.pure
      intro ss hss
      rw [← Option.some.inj hss]
      exact List.forall_mem_cons.mpr ⟨hresult s rfl, hstatements⟩
    · apply (resume_yields inBlock).bind
      intro _ _
      apply Yields.pure
      intro ss hss
      rw [← Option.some.inj hss]
      exact hstatements

omit h in
/-- All statements of a list have the property. -/
theorem parseList_yields (inBlock : Bool) {statement : Parser (Stmt Span)}
    (hstatement : Yields S statement (T room)) :
    Yields S (parseList inBlock statement) (fun ss => ∀ s ∈ ss, T room s) := by
  have hloop : Yields S (iterate (parseNext inBlock statement) [])
      (fun ss => ∀ s ∈ ss, T room s) :=
    Yields.iterate (fun _ => parseNext_yields inBlock hstatement) (by simp)
  apply hloop.bind
  intro statements hstatements
  apply Yields.pure
  intro s hs
  exact hstatements s (List.mem_reverse.mp hs)

/-- Statements have the properties that are handed on. -/
theorem parseAll_yields (room : Nat) (inBlock : Bool) :
    Yields S (parseAll room inBlock) (fun ss => ∀ s ∈ ss, T room s) := by
  induction room generalizing inBlock with
  | zero =>
      have hrefuse : YieldsContents S T 0 refuseBlock := by
        apply Yields.peek.bind
        intro t _
        exact .fail _ _
      exact parseList_yields inBlock (h.parse_yields (h.expression.parse_yields _ _) hrefuse)
  | succ room ih =>
      have hcontents : YieldsContents S T (room + 1) (parseAll room true) := by
        intro c hc
        rcases ih true c hc with ⟨hrest, hvalue⟩
        exact ⟨hrest, fun body hbody => ⟨room, rfl, hvalue body hbody⟩⟩
      exact parseList_yields inBlock (h.parse_yields (h.expression.parse_yields _ _) hcontents)

/-- The statements of every script have the properties that are handed on, whatever mistakes
the script has. -/
theorem read {source : Source} (hend : ∀ offset, S (Token.endMark offset))
    (htokens : ∀ t ∈ Token.tokensFrom 0 source, S t) :
    ∀ s ∈ (Script.read source).1.statements, T Script.maxNesting s := by
  have hall : (Cursor.ofTokens (Token.ofSource source)).All S := by
    rw [Cursor.ofTokens_ofSource]
    exact ⟨htokens, hend _⟩
  rcases h.parseAll_yields Script.maxNesting false _ hall with ⟨_, hvalue⟩
  intro s hs
  simp only [Script.read, Script.ofTokens] at hs
  cases hcase : (parseAll Script.maxNesting false
      (Cursor.ofTokens (Token.ofSource source))).value with
  | none => simp [hcase] at hs
  | some ss => exact hvalue ss hcase s (by simpa [hcase] using hs)

end Grown
end Stmt
end Shellward
