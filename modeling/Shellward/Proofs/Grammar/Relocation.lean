import Shellward.Grammar.Stmt
import Shellward.Proofs.Relocation

/-!
# The grammar does not look at places

The readers of expressions and statements put places together by merging spans.  So if a
function on spans keeps merges, moving the tokens by it moves the places of the tree and
of the problems, and changes nothing else.

Main results:

- Theorem `Expr.parse_moves`: expressions read from moved tokens are moved.
- Theorem `Stmt.parseAll_moves`: so are statements and the problems reported on the way.
-/

namespace Shellward

open Shellward.Parser

/-- A function on spans that keeps merges. -/
def Span.KeepsMerge (f : Span → Span) : Prop :=
  ∀ s t : Span, f (s.merge t) = (f s).merge (f t)

variable {f : Span → Span}

/-! ### Expressions -/

namespace Expr

/-- Reads moved expressions from moved tokens. -/
abbrev MovesExpr (f : Span → Span) (p : Parser (Expr Span)) : Prop :=
  Moves f (fun e e' => e' = e.map f) p p

/-- A moved token is read as the moved expression. -/
theorem ofToken?_moved {t u : Token} (h : Token.Moved f t u) :
    ofToken? u = (ofToken? t).map (Expr.map f) := by
  by_cases hline : t.kind = .newLine
  · simp [ofToken?, h.kind, hline]
  · unfold ofToken?
    rw [h.kind, h.span, h.lexeme hline]
    split <;> rfl

variable {inner : Nat → Parser (Expr Span)}

/-- A minus sign and its operand are read moved from moved tokens. -/
theorem parseNegation_moves (hf : Span.KeepsMerge f) (hinner : ∀ floor, MovesExpr f (inner floor)) :
    MovesExpr f (parseNegation inner) := by
  apply Moves.take.bind
  intro sign sign' hsign
  apply (hinner _).bind
  rintro operand _ rfl
  apply Moves.pure
  rw [map, place_map, hsign.span, hf]

/-- A group is read moved from moved tokens. -/
theorem parseGroup_moves (hf : Span.KeepsMerge f) (hinner : ∀ floor, MovesExpr f (inner floor)) :
    MovesExpr f (parseGroup inner) := by
  apply Moves.take.bind
  intro left left' hleft
  apply (hinner _).bind
  rintro body _ rfl
  apply (Moves.require _ _).bind
  intro right right' hright
  apply Moves.pure
  rw [map, hleft.span, hright.span, hf]

/-- An operand is read moved from moved tokens. -/
theorem parseOperand_moves (hf : Span.KeepsMerge f) (hinner : ∀ floor, MovesExpr f (inner floor)) :
    MovesExpr f (parseOperand inner) := by
  apply Moves.peek.bind
  intro t u htu
  rw [ofToken?_moved htu]
  cases ofToken? t with
  | some e =>
      apply Moves.take.bind
      intro _ _ _
      exact .pure rfl
  | none =>
      simp only [Option.map_none, htu.kind, htu.found]
      split
      · exact parseNegation_moves hf hinner
      · exact parseGroup_moves hf hinner
      · rename_i hkind
        rw [htu.lexeme (by simp [hkind])]
        exact .fail htu.span
      · exact .fail htu.span

/-- One more argument is read moved from moved tokens. -/
theorem parseArgument_moves (hinner : ∀ floor, MovesExpr f (inner floor)) (callee : String)
    {es es' : List (Expr Span)} (hes : es' = mapAll f es) :
    Moves f (Option.Rel fun es es' => es' = mapAll f es) (parseArgument inner callee es)
      (parseArgument inner callee es') := by
  have hcons : ∀ e : Expr Span,
      Option.Rel (fun es es' => es' = mapAll f es) (some (e :: es)) (some (e.map f :: es')) := by
    intro e
    exact .some (by rw [hes, mapAll])
  apply Moves.peek.bind
  intro t u htu
  rw [htu.kind]
  split
  · exact .pure .none
  · apply (hinner _).bind
    rintro e _ rfl
    apply Moves.skipLineEnds.bind
    intro _ _ _
    apply Moves.peek.bind
    intro separator separator' hseparator
    rw [hseparator.kind, hseparator.found]
    split
    · exact .pure (hcons e)
    · apply Moves.take.bind
      intro _ _ _
      apply Moves.skipLineEnds.bind
      intro _ _ _
      exact .pure (hcons e)
    · exact .fail hseparator.span
    · exact .fail hseparator.span

/-- A call is read moved from moved tokens. -/
theorem parseCall_moves (hf : Span.KeepsMerge f) (hinner : ∀ floor, MovesExpr f (inner floor))
    (callee : Expr Span) :
    Moves f (fun e e' => e' = e.map f) (parseCall inner callee)
      (parseCall inner (callee.map f)) := by
  cases callee with
  | name text p =>
      simp only [map, parseCall]
      apply Moves.take.bind
      intro _ _ _
      apply Moves.skipLineEnds.bind
      intro _ _ _
      have hloop : Moves f (fun es es' => es' = mapAll f es)
          (iterate (parseArgument inner text) []) (iterate (parseArgument inner text) []) :=
        Moves.iterate (fun _ _ => parseArgument_moves hinner text) rfl
      apply hloop.bind
      rintro es _ rfl
      apply Moves.take.bind
      intro close close' hclose
      apply Moves.pure
      rw [map, hclose.span, hf, mapAll_eq_map, mapAll_eq_map, List.map_reverse]
  | literal | call | binary | negate | group =>
      simp only [map, parseCall]
      apply Moves.peek.bind
      intro t u htu
      exact .fail htu.span

/-- An operation is read moved from moved tokens. -/
theorem parseBinary_moves (hf : Span.KeepsMerge f) (hinner : ∀ floor, MovesExpr f (inner floor))
    (op : Operator) (left : Expr Span) :
    Moves f (fun e e' => e' = e.map f) (parseBinary inner op left)
      (parseBinary inner op (left.map f)) := by
  apply Moves.take.bind
  intro _ _ _
  apply (hinner _).bind
  rintro right _ rfl
  apply Moves.pure
  rw [map, place_map, place_map, hf]

/-- An expression that is moved is continued as it was. -/
theorem parseContinuation_moves (hf : Span.KeepsMerge f)
    (hinner : ∀ floor, MovesExpr f (inner floor)) (floor : Nat) {left left' : Expr Span}
    (hleft : left' = left.map f) :
    Moves f (Option.Rel fun e e' => e' = e.map f) (parseContinuation inner floor left)
      (parseContinuation inner floor left') := by
  subst hleft
  apply Moves.peek.bind
  intro t u htu
  rw [htu.kind]
  split
  · exact (parseCall_moves hf hinner left).map fun _ _ he => .some he
  · split
    · split
      · exact (parseBinary_moves hf hinner _ left).map fun _ _ he => .some he
      · exact .pure .none
    · exact .pure .none

/-- Expressions read from moved tokens are moved. -/
theorem parse_moves (hf : Span.KeepsMerge f) (room floor : Nat) :
    MovesExpr f (parse room floor) := by
  induction room generalizing floor with
  | zero =>
      apply Moves.peek.bind
      intro t u htu
      exact .fail htu.span
  | succ room ih =>
      apply (parseOperand_moves hf ih).bind
      intro left left' hleft
      exact .iterate (fun _ _ => parseContinuation_moves hf ih floor) hleft

end Expr

/-! ### The alternatives of conditionals -/

/-- A condition with its block, moved. -/
def Branch.map (f : Span → Span) (branch : Expr Span × List (Stmt Span) × Span) :
    Expr Span × List (Stmt Span) × Span :=
  (branch.1.map f, Stmt.mapAll f branch.2.1, f branch.2.2)

/-- Alternatives are moved branch by branch. -/
theorem Else.map_ofBranches (f : Span → Span) (last : Else Span)
    (branches : List (Expr Span × List (Stmt Span) × Span)) :
    (Else.ofBranches last branches).map f =
      Else.ofBranches (last.map f) (branches.map (Branch.map f)) := by
  induction branches with
  | nil => rfl
  | cons branch branches ih =>
      rw [Else.ofBranches, Else.map, ih]
      rfl

/-- The place of the last block is moved with the block. -/
theorem Else.lastPlace_map (f : Span → Span) : ∀ (a : Else Span) (first : Span),
    (a.map f).lastPlace (f first) = f (a.lastPlace first)
  | .absent, _ | .block .., _ => by simp [Else.map, Else.lastPlace]
  | .elseIf _ _ p rest, _ => by simp [Else.map, Else.lastPlace, Else.lastPlace_map f rest p]

/-! ### Statements -/

namespace Stmt

/-- Reads moved statements from moved tokens. -/
abbrev MovesStmt (f : Span → Span) (p : Parser (Stmt Span)) : Prop :=
  Moves f (fun s s' => s' = s.map f) p p

/-- Reads moved lists of statements from moved tokens. -/
abbrev MovesAll (f : Span → Span) (p : Parser (List (Stmt Span))) : Prop :=
  Moves f (fun ss ss' => ss' = mapAll f ss) p p

variable {expression : Parser (Expr Span)} {contents : Parser (List (Stmt Span))}

theorem parseLineEnd_moves (after : Clause) (keyword : Option String) :
    Moves f (fun _ _ => True) (parseLineEnd after keyword) (parseLineEnd after keyword) := by
  apply Moves.peek.bind
  intro t u htu
  rw [htu.kind, htu.found]
  split
  · apply Moves.take.bind
    intro _ _ _
    exact .pure trivial
  · exact .pure trivial
  · exact .fail htu.span

/-- The name that an assignment sets has the same text. -/
theorem parseTarget_moves :
    Moves f (fun t u => Token.Moved f t u ∧ u.lexeme = t.lexeme) parseTarget parseTarget := by
  apply Moves.look
  intro t u htu
  rw [htu.kind, htu.found]
  split
  · rename_i hkind
    exact .take ⟨htu, htu.lexeme (by simp [hkind])⟩
  · rename_i hkind
    rw [htu.lexeme (by simp [hkind])]
    exact (Moves.fail htu.span).at_tokens t u
  · exact (Moves.fail htu.span).at_tokens t u

/-- An assignment is read moved from moved tokens. -/
theorem parseAssign_moves (hf : Span.KeepsMerge f) (hexpression : Expr.MovesExpr f expression) :
    MovesStmt f (parseAssign expression) := by
  apply Moves.take.bind
  intro start start' hstart
  apply parseTarget_moves.bind
  rintro target target' ⟨htarget, hlexeme⟩
  rw [hlexeme]
  apply (Moves.require _ _).bind
  intro _ _ _
  apply hexpression.bind
  rintro value _ rfl
  apply (parseLineEnd_moves _ _).bind
  intro _ _ _
  apply Moves.pure
  rw [map, Expr.place_map, hstart.span, htarget.span, hf]

/-- A block is read moved from moved tokens. -/
theorem parseBlock_moves (hf : Span.KeepsMerge f) (hcontents : MovesAll f contents) :
    Moves f (fun b b' => b' = (mapAll f b.1, f b.2)) (parseBlock contents)
      (parseBlock contents) := by
  apply (Moves.require _ _).bind
  intro start start' hstart
  apply (Moves.require _ _).bind
  intro _ _ _
  apply hcontents.bind
  rintro body _ rfl
  apply Moves.peek.bind
  intro t u htu
  rw [htu.kind]
  split
  · apply Moves.take.bind
    intro close close' hclose
    apply Moves.pure
    rw [hstart.span, hclose.span, hf]
  · exact .fail hstart.span

/-- A condition and its block are read moved from moved tokens. -/
theorem parseBranch_moves (hf : Span.KeepsMerge f) (hexpression : Expr.MovesExpr f expression)
    (hcontents : MovesAll f contents) :
    Moves f (fun b b' => b' = Branch.map f b) (parseBranch expression contents)
      (parseBranch expression contents) := by
  apply hexpression.bind
  rintro test _ rfl
  apply (parseBlock_moves hf hcontents).bind
  rintro ⟨body, place⟩ _ rfl
  exact .pure rfl

/-- One more condition is read moved from moved tokens. -/
theorem parseElseIf_moves (hf : Span.KeepsMerge f) (hexpression : Expr.MovesExpr f expression)
    (hcontents : MovesAll f contents)
    {branches branches' : List (Expr Span × List (Stmt Span) × Span)}
    (hbranches : branches' = branches.map (Branch.map f)) :
    Moves f (Option.Rel fun bs bs' => bs' = bs.map (Branch.map f))
      (parseElseIf expression contents branches) (parseElseIf expression contents branches') := by
  apply Moves.peek.bind
  intro first first' hfirst
  apply Moves.peekNext.bind
  intro second second' hsecond
  rw [hfirst.kind, hsecond.kind]
  split
  · apply Moves.take.bind
    intro _ _ _
    apply Moves.take.bind
    intro _ _ _
    apply (parseBranch_moves hf hexpression hcontents).bind
    rintro branch _ rfl
    exact .pure (.some (by rw [hbranches, List.map_cons]))
  · exact .pure .none

/-- The last block of a conditional is read moved from moved tokens. -/
theorem parseOtherwise_moves (hf : Span.KeepsMerge f) (hcontents : MovesAll f contents) :
    Moves f (fun a a' => a' = a.map f) (parseOtherwise contents) (parseOtherwise contents) := by
  apply Moves.peek.bind
  intro t u htu
  rw [htu.kind]
  split
  · apply Moves.take.bind
    intro _ _ _
    apply (parseBlock_moves hf hcontents).bind
    rintro ⟨body, place⟩ _ rfl
    exact .pure (by rw [Else.map])
  · exact .pure (by rw [Else.map])

/-- A conditional is read moved from moved tokens. -/
theorem parseCond_moves (hf : Span.KeepsMerge f) (hexpression : Expr.MovesExpr f expression)
    (hcontents : MovesAll f contents) : MovesStmt f (parseCond expression contents) := by
  apply Moves.take.bind
  intro start start' hstart
  apply (parseBranch_moves hf hexpression hcontents).bind
  rintro ⟨test, body, place⟩ _ rfl
  have hloop : Moves f (fun bs bs' => bs' = bs.map (Branch.map f))
      (iterate (parseElseIf expression contents) [])
      (iterate (parseElseIf expression contents) []) :=
    Moves.iterate (fun _ _ => parseElseIf_moves hf hexpression hcontents) rfl
  apply hloop.bind
  rintro branches _ rfl
  apply (parseOtherwise_moves hf hcontents).bind
  rintro last _ rfl
  apply (parseLineEnd_moves _ _).bind
  intro _ _ _
  apply Moves.pure
  rw [map, ← List.map_reverse, ← Else.map_ofBranches, Else.lastPlace_map, hstart.span, hf]

/-- Which keyword may have been meant does not depend on places. -/
theorem meantKeyword?_map (f : Span → Span) (e : Expr Span) :
    meantKeyword? (e.map f) = meantKeyword? e := by
  cases e <;> simp [Expr.map, meantKeyword?]

/-- An expression on a line of its own is read moved from moved tokens. -/
theorem parseRun_moves (hexpression : Expr.MovesExpr f expression) :
    MovesStmt f (parseRun expression) := by
  apply Moves.peek.bind
  intro t u htu
  apply Moves.peekNext.bind
  intro next next' hnext
  rw [htu.kind, hnext.kind, htu.found]
  split
  · exact .fail htu.span
  · split
    · rename_i hassign
      rw [htu.lexeme (by simp [hassign.1])]
      exact .fail htu.span
    · apply hexpression.bind
      rintro value _ rfl
      rw [meantKeyword?_map, Expr.place_map]
      apply (parseLineEnd_moves _ _).bind
      intro _ _ _
      exact .pure (by rw [map])

/-- A comment is read moved from moved tokens. -/
theorem parseComment_moves {t u : Token} (htu : Token.Moved f t u) (hkind : t.kind = .comment) :
    MovesAt f t u (fun s s' => s' = s.map f) parseComment parseComment := by
  apply MovesAt.take_bind
  apply (parseLineEnd_moves _ _).bind
  intro _ _ _
  apply Moves.pure
  rw [map, htu.span, htu.lexeme (by simp [hkind])]

theorem parseBlank_moves : MovesStmt f parseBlank := by
  apply Moves.take.bind
  intro t u htu
  exact .pure (by rw [map, htu.span])

/-- A statement is read moved from moved tokens. -/
theorem parse_moves (hf : Span.KeepsMerge f) (hexpression : Expr.MovesExpr f expression)
    (hcontents : MovesAll f contents) : MovesStmt f (parse expression contents) := by
  apply Moves.look
  intro t u htu
  rw [htu.kind]
  split
  · rename_i hkind
    exact parseComment_moves htu hkind
  · exact parseBlank_moves.at_tokens t u
  · exact (parseAssign_moves hf hexpression).at_tokens t u
  · exact (parseCond_moves hf hexpression hcontents).at_tokens t u
  · exact (parseRun_moves hexpression).at_tokens t u

/-- Whether a token ends a list shows in its kind. -/
theorem endsList_eq {t u : Token} (h : u.kind = t.kind) (inBlock : Bool) :
    endsList inBlock u = endsList inBlock t := by
  rw [endsList, h, endsList]

/-- Whether a token is skipped shows in its kind. -/
theorem isSkipped_eq {t u : Token} (h : u.kind = t.kind) (inBlock : Bool) :
    isSkipped inBlock u = isSkipped inBlock t := by
  rw [isSkipped, endsList_eq h, h, isSkipped]

/-- After a mistake, reading goes on at the moved place. -/
theorem resume_moves (inBlock : Bool) :
    Moves f (fun _ _ => True) (resume inBlock) (resume inBlock) := by
  apply Moves.peek.bind
  intro found found' hfound
  rw [isSkipped_eq hfound.kind, endsList_eq hfound.kind]
  apply (Moves.skipWhile fun hkind => isSkipped_eq hkind inBlock).bind
  intro _ _ _
  apply Moves.peek.bind
  intro t u htu
  rw [htu.kind]
  split
  · apply Moves.take.bind
    intro _ _ _
    exact .pure trivial
  · exact .pure trivial

/-- One more statement is read alike in front of whatever statements were read before. -/
theorem parseNext_moves (inBlock : Bool) {statement : Parser (Stmt Span)}
    (hstatement : MovesStmt f statement) (before : List (Stmt Span)) {ss ss' : List (Stmt Span)}
    (hss : ss' = mapAll f ss ++ before) :
    Moves f (Option.Rel fun ss ss' => ss' = mapAll f ss ++ before)
      (parseNext inBlock statement ss) (parseNext inBlock statement ss') := by
  apply Moves.peek.bind
  intro t u htu
  rw [endsList_eq htu.kind]
  split
  · exact .pure .none
  · apply hstatement.attempt.bind
    intro o o' ho
    cases ho with
    | none =>
        apply (resume_moves inBlock).bind
        intro _ _ _
        exact .pure (.some hss)
    | some hs =>
        apply Moves.pure
        exact .some (by rw [hs, hss, mapAll, List.cons_append])

/-- Statements are read alike in front of whatever statements were read before. -/
theorem iterate_parseNext_moves (inBlock : Bool) {statement : Parser (Stmt Span)}
    (hstatement : MovesStmt f statement) (before : List (Stmt Span)) :
    Moves f (fun ss ss' => ss' = mapAll f ss ++ before)
      (iterate (parseNext inBlock statement) []) (iterate (parseNext inBlock statement) before) :=
  Moves.iterate (fun _ _ => parseNext_moves inBlock hstatement before) (by simp [mapAll])

/-- A list of statements is read moved from moved tokens. -/
theorem parseList_moves (inBlock : Bool) {statement : Parser (Stmt Span)}
    (hstatement : MovesStmt f statement) : MovesAll f (parseList inBlock statement) := by
  apply (iterate_parseNext_moves inBlock hstatement []).bind
  rintro ss _ rfl
  apply Moves.pure
  rw [List.append_nil, mapAll_eq_map, mapAll_eq_map, List.map_reverse]

theorem refuseBlock_moves : MovesAll f refuseBlock := by
  apply Moves.peek.bind
  intro t u htu
  exact .fail htu.span

/-- Statements read from moved tokens are moved, and so are the problems reported. -/
theorem parseAll_moves (hf : Span.KeepsMerge f) (room : Nat) (inBlock : Bool) :
    MovesAll f (parseAll room inBlock) := by
  induction room generalizing inBlock with
  | zero =>
      exact parseList_moves inBlock
        (parse_moves hf (Expr.parse_moves hf _ _) refuseBlock_moves)
  | succ room ih =>
      exact parseList_moves inBlock (parse_moves hf (Expr.parse_moves hf _ _) (ih true))

end Stmt
end Shellward
