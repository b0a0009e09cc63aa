import Shellward.Proofs.Forward
import Shellward.Proofs.Grammar.Scripts
import Shellward.Proofs.Locality
import Shellward.Script.Equality

/-!
# Going on after a mistake

A statement that cannot be read is given up, and reading goes on at the next line or before
the next token that may begin a statement.  Statements are read by loops, one for the script
and one for each block that is entered; a turn of such a loop is known by the room it has, by
whether it stands in a block, and by the place where it starts.

The rule that reading goes on before a conditional or a comment has one exception: one that
stands where the mistake was found is passed over.

Main results:

- Theorem `Stmt.parse_eq_of_opens`: how a statement is read depends on how the contents of
  blocks are read only where the statement opens a block.
- Theorem `Stmt.Turns.later`: the turns of all loops start at places of the script.
- Theorem `Stmt.parseAllBy_eq_of_turns`: there are no other turns.
- Theorem `Stmt.exists_resumes`: what is passed over after a mistake.
- Theorem `Stmt.mistake_drops_landmark_iff`: a conditional or a comment is passed over exactly
  if the mistake was found at it.
-/

namespace Shellward

open Shellward.Parser

/-! ### Sequences at a place -/

namespace Parser

variable {α β : Type} {p p' : Parser α} {f f' : α → Parser β} {c : Cursor}

/-- Two sequences do the same at a place if their first parts do, and their second parts do
where the first ones leave off. -/
theorem bind_congr_at (hp : p c = p' c)
    (hf : ∀ a, (p c).value = some a → f a (p c).rest = f' a (p c).rest) :
    (p >>= f) c = (p' >>= f') c := by
  cases hvalue : (p c).value with
  | none => rw [bind_of_none hvalue, bind_of_none (hp ▸ hvalue), hp]
  | some a =>
      have hnext := hf a hvalue
      rw [bind_of_some hvalue, bind_of_some (hp ▸ hvalue), hnext, hp]

/-- After a look at the next token, reading goes on at the same place. -/
theorem peek_bind_apply (f : Token → Parser β) (c : Cursor) : (peek >>= f) c = f c.peek c := by
  have hpeek : (peek c).value = some c.peek := rfl
  rw [bind_of_some hpeek]
  rfl

/-- After a look at the token after the next one, reading goes on at the same place. -/
theorem peekNext_bind_apply (f : Token → Parser β) (c : Cursor) :
    (peekNext >>= f) c = f c.peekNext c := by
  have hpeek : (peekNext c).value = some c.peekNext := rfl
  rw [bind_of_some hpeek]
  rfl

/-- After a token is taken, reading goes on behind it. -/
theorem take_bind_apply (f : Token → Parser β) (c : Cursor) :
    (take >>= f) c = f c.peek c.advance := by
  have htake : (take c).value = some c.peek := rfl
  rw [bind_of_some htake]
  rfl

/-- After tokens are skipped, reading goes on behind them. -/
theorem skipWhile_bind_apply (test : Token → Bool) (f : Unit → Parser β) (c : Cursor) :
    (skipWhile test >>= f) c = f () (c.skipWhile test) := by
  have hskip : (skipWhile test c).value = some () := rfl
  rw [bind_of_some hskip]
  rfl

/-- A token that is asked for is taken, or reading stops with a report. -/
theorem require_bind_apply (kind : Token.Kind) (fault : Found → Fault) (f : Token → Parser β)
    (c : Cursor) : (require kind fault >>= f) c =
      if c.peek.kind = kind then f c.peek c.advance
      else ⟨none, [⟨fault c.peek.found, c.peek.span⟩], c⟩ := by
  have hrequire : require kind fault c =
      if c.peek.kind = kind then take c else fail (fault c.peek.found) c.peek.span c := by
    rw [require, peek_bind_apply]
    split <;> rfl
  split
  next hkind =>
    rw [if_pos hkind] at hrequire
    rw [bind_of_some (by rw [hrequire]; rfl), hrequire]
    rfl
  next hkind =>
    rw [if_neg hkind] at hrequire
    rw [bind_of_none (by rw [hrequire]; rfl), hrequire]
    rfl

/-- Two loops do the same at a place if their rounds do at the places that they come to. -/
theorem iterate_congr_at {σ : Type} {step step' : σ → Parser (Option σ)} {P : Cursor → Prop}
    (hstep : ∀ state c, P c → step state c = step' state c)
    (hnext : ∀ state c next, P c → (step state c).value = some (some next) →
      P (step state c).rest)
    (hc : P c) (state : σ) : iterate step state c = iterate step' state c := by
  -- The induction is on the tokens ahead, of which every further round has fewer.
  induction hn : c.ahead.length using Nat.strongRecOn generalizing state c with
  | ind n ih =>
      rw [iterate.eq_1 step, iterate.eq_1 step', ← hstep state c hc]
      split
      next => rfl
      next => rfl
      next next hround =>
        split
        next hlt => rw [ih _ (hn ▸ hlt) (hnext state c next hc hround) next rfl]
        next => rfl

end Parser

namespace Stmt

variable {expression : Parser (Expr Span)} {contents contents' : Parser (List (Stmt Span))}
variable {c d : Cursor}

/-! ### The blocks that a statement opens -/

/-- At a place there is a block, whose contents start at another place. -/
def OpensBlock (c d : Cursor) : Prop :=
  c.peek.kind = .leftBrace ∧ c.advance.peek.kind = .newLine ∧ d = c.advance.advance

/-- At a place there is a condition and then a block. -/
def OpensBranch (expression : Parser (Expr Span)) (c d : Cursor) : Prop :=
  (expression c).value.isSome ∧ OpensBlock (expression c).rest d

/-- After a block, the conditional goes on with other blocks. -/
inductive OpensElse (expression : Parser (Expr Span)) (contents : Parser (List (Stmt Span))) :
    Cursor → Cursor → Prop where
  | block {c d : Cursor} (hkind : c.peek.kind = .elseWord) (h : OpensBlock c.advance d) :
      OpensElse expression contents c d
  | branch {c d : Cursor} (hkind : c.peek.kind = .elseWord) (hnext : c.peekNext.kind = .ifWord)
      (h : OpensBranch expression c.advance.advance d) : OpensElse expression contents c d
  | more {c d : Cursor} (hkind : c.peek.kind = .elseWord) (hnext : c.peekNext.kind = .ifWord)
      (hbranch : (parseBranch expression contents c.advance.advance).value.isSome)
      (h : OpensElse expression contents
        (parseBranch expression contents c.advance.advance).rest d) :
      OpensElse expression contents c d

/-- The statement at a place is a conditional, and the contents of one of its blocks start at
another place. -/
def Opens (expression : Parser (Expr Span)) (contents : Parser (List (Stmt Span)))
    (c d : Cursor) : Prop :=
  c.peek.kind = .ifWord ∧
    (OpensBranch expression c.advance d ∨
      (parseBranch expression contents c.advance).value.isSome ∧
        OpensElse expression contents (parseBranch expression contents c.advance).rest d)

section Congruence

/-- A block is read alike by readers that agree where its contents start. -/
theorem parseBlock_congr (h : ∀ d, OpensBlock c d → contents d = contents' d) :
    parseBlock contents c = parseBlock contents' c := by
  simp only [parseBlock, require_bind_apply]
  split
  next hbrace =>
    split
    next hline => exact bind_congr_at (h _ ⟨hbrace, hline, rfl⟩) fun _ _ => rfl
    next => rfl
  next => rfl

/-- A condition and its block are read alike by readers that agree where the block starts. -/
theorem parseBranch_congr (h : ∀ d, OpensBranch expression c d → contents d = contents' d) :
    parseBranch expression contents c = parseBranch expression contents' c := by
  refine bind_congr_at rfl fun test htest => ?_
  have hblock := parseBlock_congr fun d hd => h d ⟨by rw [htest]; rfl, hd⟩
  exact bind_congr_at hblock fun _ _ => rfl

/-- The last block is read alike by readers that agree where it starts. -/
theorem parseOtherwise_congr (expression : Parser (Expr Span))
    (h : ∀ d, OpensElse expression contents c d → contents d = contents' d) :
    parseOtherwise contents c = parseOtherwise contents' c := by
  unfold parseOtherwise
  rw [peek_bind_apply, peek_bind_apply]
  split
  next hword =>
    rw [take_bind_apply, take_bind_apply]
    have hblock := parseBlock_congr fun d hd => h d (.block hword hd)
    exact bind_congr_at hblock fun _ _ => rfl
  next => rfl

/-- One more condition is read alike by readers that agree where its block starts. -/
theorem parseElseIf_congr (branches : List (Expr Span × List (Stmt Span) × Span))
    (h : ∀ d, OpensElse expression contents c d → contents d = contents' d) :
    parseElseIf expression contents branches c = parseElseIf expression contents' branches c := by
  unfold parseElseIf
  rw [peek_bind_apply, peek_bind_apply, peekNext_bind_apply, peekNext_bind_apply]
  split
  next hwords =>
    rw [take_bind_apply, take_bind_apply, take_bind_apply, take_bind_apply]
    have hbranch := parseBranch_congr fun d hd => h d (.branch hwords.1 hwords.2 hd)
    exact bind_congr_at hbranch fun _ _ => rfl
  next => rfl

/-- Where no further condition follows, nothing is taken. -/
theorem rest_parseElseIf_of_none {branches : List (Expr Span × List (Stmt Span) × Span)}
    (hnone : (parseElseIf expression contents branches c).value = some none) :
    (parseElseIf expression contents branches c).rest = c := by
  unfold parseElseIf at hnone ⊢
  rw [peek_bind_apply, peekNext_bind_apply] at hnone ⊢
  split at hnone
  next =>
    rw [take_bind_apply, take_bind_apply] at hnone
    cases hbranch : (parseBranch expression contents c.advance.advance).value with
    | none => simp [bind_of_none hbranch] at hnone
    | some branch => simp [bind_of_some hbranch] at hnone
  next hwords => rw [if_neg hwords]; rfl

/-- Where one more condition of a conditional was read, the conditional goes on as it does
after the block of the condition. -/
theorem OpensElse.of_parseElseIf {branches next : List (Expr Span × List (Stmt Span) × Span)}
    (hnext : (parseElseIf expression contents branches c).value = some (some next))
    (h : OpensElse expression contents (parseElseIf expression contents branches c).rest d) :
    OpensElse expression contents c d := by
  unfold parseElseIf at hnext h
  rw [peek_bind_apply, peekNext_bind_apply] at hnext h
  split at hnext
  next hwords =>
    rw [if_pos hwords] at h
    rw [take_bind_apply, take_bind_apply] at hnext h
    cases hbranch : (parseBranch expression contents c.advance.advance).value with
    | none =>
        rw [bind_of_none hbranch] at hnext
        simp at hnext
    | some branch =>
        rw [bind_of_some hbranch] at h
        exact .more hwords.1 hwords.2 (by rw [hbranch]; rfl) h
  next => simp at hnext

/-- The further conditions of a conditional and its last block are read alike by readers that
agree where it opens blocks. -/
theorem parseElseIfs_congr (branches : List (Expr Span × List (Stmt Span) × Span))
    (h : ∀ d, OpensElse expression contents c d → contents d = contents' d) :
    iterate (parseElseIf expression contents) branches c =
        iterate (parseElseIf expression contents') branches c ∧
      ∀ all, (iterate (parseElseIf expression contents) branches c).value = some all →
        parseOtherwise contents (iterate (parseElseIf expression contents) branches c).rest =
          parseOtherwise contents' (iterate (parseElseIf expression contents) branches c).rest := by
  induction hn : c.ahead.length using Nat.strongRecOn generalizing branches c with
  | ind n ih =>
      have hround := parseElseIf_congr branches h
      rw [iterate.eq_1 (parseElseIf expression contents),
        iterate.eq_1 (parseElseIf expression contents'), ← hround]
      split
      next => exact ⟨rfl, fun _ hall => by simp at hall⟩
      next hdone =>
        have hstay := rest_parseElseIf_of_none hdone
        exact ⟨rfl, fun _ _ => parseOtherwise_congr expression fun d hd => h d (hstay ▸ hd)⟩
      next next hnext =>
        have hlater : ∀ d, OpensElse expression contents
            (parseElseIf expression contents branches c).rest d → contents d = contents' d :=
          fun d hd => h d (.of_parseElseIf hnext hd)
        split
        next hlt =>
          rcases ih _ (hn ▸ hlt) next hlater rfl with ⟨hloop, hlast⟩
          exact ⟨by rw [hloop], hlast⟩
        next => exact ⟨rfl, fun _ _ => parseOtherwise_congr expression hlater⟩

/-- A conditional is read alike by readers that agree where it opens blocks. -/
theorem parseCond_congr (hword : c.peek.kind = .ifWord)
    (h : ∀ d, Opens expression contents c d → contents d = contents' d) :
    parseCond expression contents c = parseCond expression contents' c := by
  unfold parseCond
  rw [take_bind_apply, take_bind_apply]
  have hbranch := parseBranch_congr fun d hd => h d ⟨hword, .inl hd⟩
  refine bind_congr_at hbranch fun branch hvalue => ?_
  have hmore := fun d hd => h d ⟨hword, .inr ⟨by rw [hvalue]; rfl, hd⟩⟩
  rcases parseElseIfs_congr [] hmore with ⟨hloop, hlast⟩
  refine bind_congr_at hloop fun branches hbranches => ?_
  exact bind_congr_at (hlast branches hbranches) fun _ _ => rfl

/-- How a statement is read depends on how the contents of blocks are read only where the
statement opens a block. -/
theorem parse_eq_of_opens (h : ∀ d, Opens expression contents c d → contents d = contents' d) :
    parse expression contents c = parse expression contents' c := by
  unfold parse
  rw [peek_bind_apply, peek_bind_apply]
  by_cases hword : c.peek.kind = .ifWord
  · rw [hword]
    exact parseCond_congr hword h
  · cases hkind : c.peek.kind <;> first | rfl | exact absurd hkind hword

end Congruence

/-! ### The turns of the loops -/

/-- The contents of a block start after the block does. -/
theorem OpensBlock.later (h : OpensBlock c d) : c.Later d := by
  rcases h with ⟨_, _, rfl⟩
  exact (Cursor.Later.advance c).trans (.advance _)

section Later

variable (hexpression : Forward expression) (hcontents : Forward contents)
include hexpression

/-- The contents of a block start after its condition does. -/
theorem OpensBranch.later (h : OpensBranch expression c d) : c.Later d :=
  (hexpression c).trans h.2.later

include hcontents

/-- The further blocks of a conditional start after the first one ends. -/
theorem OpensElse.later (h : OpensElse expression contents c d) : c.Later d := by
  induction h with
  | block _ h => exact (Cursor.Later.advance _).trans h.later
  | branch _ _ h =>
      exact (Cursor.Later.advance _).trans ((Cursor.Later.advance _).trans (h.later hexpression))
  | more _ _ _ _ ih =>
      have hbranch := forward_hereditary.branch hexpression hcontents
      exact (Cursor.Later.advance _).trans
        ((Cursor.Later.advance _).trans ((hbranch _).trans ih))

/-- A block that a statement opens starts after the statement does. -/
theorem Opens.later (h : Opens expression contents c d) : c.Later d := by
  rcases h with ⟨_, hfirst | ⟨_, hmore⟩⟩
  · exact (Cursor.Later.advance c).trans (hfirst.later hexpression)
  · have hbranch := forward_hereditary.branch hexpression hcontents
    exact (Cursor.Later.advance c).trans ((hbranch _).trans (hmore.later hexpression hcontents))

end Later

/-- The turns of the loops that read the statements of a script: the room for nesting, whether
the loop stands in a block, and where the turn starts. -/
inductive Turns (source : Source) : Nat → Bool → Cursor → Prop where
  | start : Turns source Script.maxNesting false (Cursor.ofTokens (Token.ofSource source))
  | next {room : Nat} {inBlock : Bool} {c : Cursor} (h : Turns source room inBlock c)
      (hends : endsList inBlock c.peek = false) (statements : List (Stmt Span)) :
      Turns source room inBlock (parseNext inBlock (statementWithin room) statements c).rest
  | block {room : Nat} {inBlock : Bool} {c d : Cursor} (h : Turns source (room + 1) inBlock c)
      (hopens : Opens (Expr.parse (room + 1) Operator.loosest) (parseAll room true) c d) :
      Turns source room true d

/-- Reading a statement never goes back. -/
theorem statementWithin_forward (room : Nat) : Forward (statementWithin room) :=
  statementWithin_hereditary forward_hereditary room

/-- Every turn starts at a place of the script. -/
theorem Turns.later {source : Source} {room : Nat} {inBlock : Bool}
    (h : Turns source room inBlock c) : (Cursor.ofTokens (Token.ofSource source)).Later c := by
  induction h with
  | start => exact .refl _
  | next _ _ statements ih =>
      exact ih.trans (forward_hereditary.next _ (statementWithin_forward _) statements _)
  | @block room _ _ _ _ hopens ih =>
      have hexpression := forward_hereditary.expression (room + 1) Operator.loosest
      have hcontents := forward_hereditary.statements room true
      exact ih.trans (hopens.later hexpression hcontents)

/-- How a turn of a loop over statements is taken: with the room for nesting, in a block or not,
and with the reader of a statement. -/
abbrev Turn :=
  Nat → Bool → Parser (Stmt Span) → List (Stmt Span) → Parser (Option (List (Stmt Span)))

/-- Statements that are read by a loop with the given turns. -/
def parseListBy (turn : List (Stmt Span) → Parser (Option (List (Stmt Span)))) :
    Parser (List (Stmt Span)) := do
  let statements ← iterate turn []
  pure statements.reverse

/-- Statements whose loops, those of the blocks in them too, take their turns in another way. -/
def parseAllBy (turn : Turn) : (room : Nat) → (inBlock : Bool) → Parser (List (Stmt Span))
  | 0, inBlock =>
      parseListBy (turn 0 inBlock (parse (Expr.parse 0 Operator.loosest) refuseBlock))
  | room + 1, inBlock =>
      parseListBy (turn (room + 1) inBlock
        (parse (Expr.parse (room + 1) Operator.loosest) (parseAllBy turn room true)))

/-- A turn depends on the reader of a statement only at the place where it starts. -/
theorem parseNext_congr {inBlock : Bool} {statement statement' : Parser (Stmt Span)}
    (h : statement c = statement' c) (before : List (Stmt Span)) :
    parseNext inBlock statement before c = parseNext inBlock statement' before c := by
  have hattempt : attempt statement c = attempt statement' c := by
    simp only [attempt, h]
  unfold parseNext
  rw [peek_bind_apply, peek_bind_apply]
  split
  next => rfl
  next => exact bind_congr_at hattempt fun _ _ => rfl

/-- A loop goes on only from a place that does not end its list. -/
theorem endsList_of_parseNext {inBlock : Bool} {statement : Parser (Stmt Span)}
    {before next : List (Stmt Span)}
    (h : (parseNext inBlock statement before c).value = some (some next)) :
    endsList inBlock c.peek = false := by
  rw [parseNext, peek_bind_apply] at h
  split at h
  next => simp at h
  next hends => exact Bool.eq_false_iff.mpr hends

section AllTurns

variable {source : Source} {turn : Turn}
variable (h : ∀ {room : Nat} {inBlock : Bool} {c : Cursor}, Turns source room inBlock c →
  ∀ statement before,
    turn room inBlock statement before c = parseNext inBlock statement before c)
include h

/-- One loop: if its statements are read alike where its turns start, its statements are. -/
theorem Turns.parseListBy_eq {room : Nat} {statement : Parser (Stmt Span)}
    (hstatement : ∀ {inBlock : Bool} {c : Cursor}, Turns source room inBlock c →
      statementWithin room c = statement c)
    {inBlock : Bool} (hc : Turns source room inBlock c) :
    parseListBy (turn room inBlock statement) c = parseAll room inBlock c := by
  have hloop : iterate (parseNext inBlock (statementWithin room)) [] c =
      iterate (turn room inBlock statement) [] c := by
    refine iterate_congr_at (P := Turns source room inBlock) ?_ ?_ hc []
    · intro before c hc
      rw [h hc statement before]
      exact parseNext_congr (hstatement hc) before
    · intro before c next hc hnext
      exact hc.next (endsList_of_parseNext hnext) before
  rw [parseAll_eq]
  exact bind_congr_at hloop.symm fun _ _ => rfl

/-- All loops from a turn on, those of the blocks in it too. -/
theorem Turns.parseAllBy_eq {room : Nat} {inBlock : Bool} (hc : Turns source room inBlock c) :
    parseAllBy turn room inBlock c = parseAll room inBlock c := by
  induction room generalizing inBlock c with
  | zero => exact Turns.parseListBy_eq h (fun _ => rfl) hc
  | succ room ih =>
      refine Turns.parseListBy_eq h ?_ hc
      intro inBlock c hc
      exact parse_eq_of_opens fun d hopens => (ih (hc.block hopens)).symm

/-- The turns that are listed are all that there are: loops that take them as they should read a
script as it is read, whatever they do at other places. -/
theorem parseAllBy_eq_of_turns :
    parseAllBy turn Script.maxNesting false (Cursor.ofTokens (Token.ofSource source)) =
      parseAll Script.maxNesting false (Cursor.ofTokens (Token.ofSource source)) :=
  Turns.parseAllBy_eq h .start

end AllTurns

/-! ### What is passed over -/

/-- A token before which reading goes on after a mistake that was found earlier: it may begin
a statement in the middle of a line. -/
def isLandmark (t : Token) : Bool :=
  t.kind == .ifWord || t.kind == .comment

/-- What stands before the next boundary of statements: all up to the end of the line, or up to
a landmark or the end of the list before that. -/
inductive UpToBoundary (inBlock : Bool) : List Token → List Token → Prop where
  | line {t : Token} {ts : List Token} (hline : t.kind = .newLine) :
      UpToBoundary inBlock (t :: ts) [t]
  | before {t : Token} {ts : List Token} (hstop : isLandmark t ∨ endsList inBlock t) :
      UpToBoundary inBlock (t :: ts) []
  | skip {t : Token} {ts dropped : List Token} (hline : t.kind ≠ .newLine)
      (hgo : ¬ isLandmark t) (hlist : ¬ endsList inBlock t)
      (h : UpToBoundary inBlock ts dropped) : UpToBoundary inBlock (t :: ts) (t :: dropped)

/-- After a mistake that was found at a place, reading goes on at another place. -/
structure Resumes (inBlock : Bool) (found resumed : Cursor) (dropped : List Token) : Prop where
  /-- Nothing but the tokens passed over stands in between. -/
  upcoming : found.upcoming = dropped ++ resumed.upcoming
  /-- Away from a landmark all up to the next boundary is passed over. -/
  boundary : ¬ isLandmark found.peek → UpToBoundary inBlock found.upcoming dropped
  /-- At a landmark, the landmark is. -/
  landmark : isLandmark found.peek → dropped = [found.peek]

/-- No landmark stands before the next boundary. -/
theorem UpToBoundary.not_isLandmark {inBlock : Bool} {input dropped : List Token}
    (h : UpToBoundary inBlock input dropped) : ∀ t ∈ dropped, ¬ isLandmark t := by
  induction h with
  | line hline => simp [isLandmark, hline]
  | before => simp
  | skip _ hgo _ _ ih => exact List.forall_mem_cons.mpr ⟨hgo, ih⟩

/-- A landmark is passed over exactly if the mistake was found at it. -/
theorem Resumes.drops_iff {inBlock : Bool} {found resumed : Cursor} {dropped : List Token}
    (h : Resumes inBlock found resumed dropped) :
    (∃ t ∈ dropped, isLandmark t) ↔ isLandmark found.peek := by
  constructor
  · rintro ⟨t, ht, hlandmark⟩
    refine Decidable.byContradiction fun hfound => ?_
    exact (h.boundary hfound).not_isLandmark t ht hlandmark
  · intro hfound
    exact ⟨found.peek, by simp [h.landmark hfound], hfound⟩

/-- Tokens are skipped up to a line end, a landmark or the end of the list. -/
theorem isSkipped_iff {inBlock : Bool} {t : Token} :
    isSkipped inBlock t ↔ t.kind ≠ .newLine ∧ ¬ isLandmark t ∧ ¬ endsList inBlock t := by
  simp only [isSkipped, isLandmark]
  grind

/-- Tokens that are skipped stand before the boundary. -/
theorem UpToBoundary.append {inBlock : Bool} {front input dropped : List Token}
    (hfront : ∀ t ∈ front, isSkipped inBlock t) (h : UpToBoundary inBlock input dropped) :
    UpToBoundary inBlock (front ++ input) (front ++ dropped) := by
  induction front with
  | nil => exact h
  | cons t ts ih =>
      rcases List.forall_mem_cons.mp hfront with ⟨ht, hts⟩
      rcases isSkipped_iff.mp ht with ⟨hline, hgo, hlist⟩
      exact .skip hline hgo hlist (ih hts)

/-- Going on after a mistake succeeds. -/
theorem resume_apply (inBlock : Bool) (c : Cursor) :
    resume inBlock c = ⟨some (), [],
      if (c.skipWhile (isSkipped inBlock)).peek.kind = .newLine ∨
          (!isSkipped inBlock c.peek ∧ !endsList inBlock c.peek) then
        (c.skipWhile (isSkipped inBlock)).advance
      else c.skipWhile (isSkipped inBlock)⟩ := by
  rw [resume, peek_bind_apply, skipWhile_bind_apply, peek_bind_apply]
  split <;> rfl

/-- Going on after a mistake never fails. -/
theorem resume_total (inBlock : Bool) : Total (resume inBlock) := by
  refine Total.peek.bind fun found => (Total.skipWhile _).bind fun _ => Total.peek.bind fun t => ?_
  split
  · exact Total.take.bind fun _ => .pure _
  · exact .pure _

/-- A statement that cannot be read does not stop the loop. -/
theorem parseNext_total (inBlock : Bool) (statement : Parser (Stmt Span))
    (before : List (Stmt Span)) : Total (parseNext inBlock statement before) := by
  refine Total.peek.bind fun t => ?_
  split
  · exact .pure _
  · refine (Total.attempt _).bind fun o => ?_
    cases o with
    | none => exact (resume_total inBlock).bind fun _ => .pure _
    | some s => exact .pure _

/-- The tokens to come are those that are skipped and then the others. -/
theorem upcoming_eq_takeWhile_append (test : Token → Bool) (c : Cursor) :
    c.upcoming = c.ahead.takeWhile test ++ (c.skipWhile test).upcoming := by
  rw [Cursor.upcoming, Cursor.upcoming, Cursor.skipWhile, ← List.append_assoc,
    List.takeWhile_append_dropWhile]

section Resuming

variable (inBlock : Bool) (hc : c.Proper)
include hc

/-- Skipping stops: the end mark is not skipped. -/
theorem isSkipped_peek_skipWhile :
    isSkipped inBlock (c.skipWhile (isSkipped inBlock)).peek = false := by
  have hhead := List.head?_dropWhile_not (isSkipped inBlock) c.ahead
  rw [Cursor.peek, Cursor.skipWhile]
  cases hdrop : c.ahead.dropWhile (isSkipped inBlock) with
  | nil => simp [isSkipped, endsList, hc.final]
  | cons t ts => simpa [hdrop] using hhead

/-- A token that is not skipped stays where it is. -/
theorem peek_skipWhile_of_not_isSkipped (hfound : isSkipped inBlock c.peek = false) :
    c.skipWhile (isSkipped inBlock) = c := by
  rcases c with ⟨past, _ | ⟨t, ts⟩, final⟩
  · rfl
  · have ht : isSkipped inBlock t = false := hfound
    simp [Cursor.skipWhile, ht]

/-- Away from a landmark, all up to the next boundary is passed over. -/
theorem resume_upToBoundary (hfound : ¬ isLandmark c.peek) :
    ∃ dropped, c.upcoming = dropped ++ (resume inBlock c).rest.upcoming ∧
      UpToBoundary inBlock c.upcoming dropped := by
  have hstop := isSkipped_peek_skipWhile inBlock hc
  have hproper := hc.skipWhile (isSkipped inBlock)
  have hstay := peek_skipWhile_of_not_isSkipped inBlock hc
  have hinput := upcoming_eq_takeWhile_append (isSkipped inBlock) c
  have hfront : ∀ t ∈ c.ahead.takeWhile (isSkipped inBlock), isSkipped inBlock t :=
    List.all_eq_true.mp List.all_takeWhile
  rw [resume_apply]
  by_cases hline : (c.skipWhile (isSkipped inBlock)).peek.kind = .newLine
  · rw [if_pos (.inl hline)]
    have hnext := hproper.upcoming_eq (by simp [hline])
    refine ⟨c.ahead.takeWhile (isSkipped inBlock) ++ [(c.skipWhile (isSkipped inBlock)).peek],
      ?_, ?_⟩
    · rw [hinput, hnext, List.append_assoc]
      rfl
    · rw [hinput, hnext]
      exact .append hfront (.line hline)
  · have hgo : ¬ (!isSkipped inBlock c.peek ∧ !endsList inBlock c.peek) := by
      grind [isSkipped_iff]
    rw [if_neg (not_or.mpr ⟨hline, hgo⟩)]
    refine ⟨c.ahead.takeWhile (isSkipped inBlock) ++ [], ?_, ?_⟩
    · rw [List.append_nil]
      exact hinput
    · rw [hinput, Cursor.upcoming_eq_peek_cons]
      exact .append hfront (.before (by grind [isSkipped_iff]))

/-- At a landmark, the landmark is passed over. -/
theorem rest_resume_of_isLandmark (hfound : isLandmark c.peek) :
    (resume inBlock c).rest = c.advance := by
  have hskipped : isSkipped inBlock c.peek = false := by grind [isSkipped_iff]
  have hends : endsList inBlock c.peek = false := by
    simp only [isLandmark, endsList] at *
    grind
  rw [resume_apply, peek_skipWhile_of_not_isSkipped inBlock hc hskipped,
    if_pos (.inr (by simp [hskipped, hends]))]

/-- What is passed over after a mistake. -/
theorem exists_resumes : ∃ dropped, Resumes inBlock c (resume inBlock c).rest dropped := by
  by_cases hfound : isLandmark c.peek
  · have heof : c.peek.kind ≠ .eof := by
      intro heof
      simp [isLandmark, heof] at hfound
    refine ⟨[c.peek], ?_, fun h => absurd hfound h, fun _ => rfl⟩
    rw [rest_resume_of_isLandmark inBlock hc hfound]
    exact hc.upcoming_eq heof
  · rcases resume_upToBoundary inBlock hc hfound with ⟨dropped, hinput, hdropped⟩
    exact ⟨dropped, hinput, fun _ => hdropped, fun h => absurd h hfound⟩

end Resuming

/-! ### Mistakes of a script -/

/-- While a script is read, a statement is begun at a place and cannot be read. -/
structure Mistake (source : Source) (room : Nat) (inBlock : Bool) (c : Cursor) : Prop where
  turn : Turns source room inBlock c
  begun : endsList inBlock c.peek = false
  fails : (statementWithin room c).value = none

/-- After a mistake, a turn ends where reading goes on. -/
theorem rest_parseNext_of_none {inBlock : Bool} {statement : Parser (Stmt Span)}
    (hends : endsList inBlock c.peek = false) (hnone : (statement c).value = none)
    (statements : List (Stmt Span)) :
    (parseNext inBlock statement statements c).rest =
      (resume inBlock (statement c).rest).rest := by
  have hattempt : (attempt statement c).value = some none := by rw [← hnone]; rfl
  have hresume : ∀ d, (resume inBlock d).value = some () := fun d => by rw [resume_apply]
  rw [parseNext, peek_bind_apply, hends, if_neg (by simp), bind_of_some hattempt]
  exact congrArg Outcome.rest (bind_of_some (hresume _) _)

/-- What begins at a landmark takes it. -/
theorem statementWithin_later_of_isLandmark (room : Nat) (hstart : isLandmark c.peek) :
    c.advance.Later (statementWithin room c).rest := by
  have hF := forward_hereditary
  have hexpression := hF.expression room Operator.loosest
  have hcontents := contentsWithin_hereditary hF room
  rw [statementWithin, parse, peek_bind_apply]
  simp only [isLandmark, Bool.or_eq_true, beq_iff_eq] at hstart
  rcases hstart with hword | hcomment
  · rw [hword]
    exact Forward.take_bind (fun _ => hF.bind (hF.branch hexpression hcontents) fun _ =>
      hF.bind (hF.iterate (hF.elseIf hexpression hcontents) _) fun _ =>
        hF.bind (hF.otherwise hcontents) fun _ =>
          hF.bind (hF.lineEnd _ _) fun _ => hF.pure _) c
  · rw [hcomment]
    exact Forward.take_bind (fun _ => hF.bind (hF.lineEnd _ _) fun _ => hF.pure _) c

/-- A mistake that is found at a landmark is found after the start of the statement. -/
theorem length_upcoming_lt_of_isLandmark (room : Nat) (hc : c.Proper)
    (hfound : isLandmark (statementWithin room c).rest.peek) :
    (statementWithin room c).rest.upcoming.length < c.upcoming.length := by
  have hlater := (statementWithin_forward room c).upcoming
  refine Nat.lt_of_le_of_ne hlater.length_le fun hlength => ?_
  -- Where nothing was taken, the landmark is what the statement begins with.
  have hpeek : (statementWithin room c).rest.peek = c.peek := by
    have hsame := hlater.eq_of_length hlength
    rw [c.upcoming_eq_peek_cons] at hsame
    exact Cursor.peek_eq_of_upcoming hsame
  rw [hpeek] at hfound
  have heof : c.peek.kind ≠ .eof := by
    intro heof
    simp [isLandmark, heof] at hfound
  have hadvance := (statementWithin_later_of_isLandmark room hfound).upcoming.length_le
  rw [hlength, hc.upcoming_eq heof, List.length_cons] at hadvance
  omega

/-- After a mistake, all up to the next boundary of statements is passed over, unless the
mistake was found at a landmark.  Then the landmark is passed over, although the statement had
taken a token before it, and this is the only way in which a landmark is lost. -/
theorem mistake_drops_landmark_iff {source : Source} {room : Nat} {inBlock : Bool}
    (h : Mistake source room inBlock c) (statements : List (Stmt Span)) :
    (statementWithin room c).rest.upcoming <:+ Token.ofSource source ∧
      ∃ dropped,
        Resumes inBlock (statementWithin room c).rest
          (parseNext inBlock (statementWithin room) statements c).rest dropped ∧
        ((∃ t ∈ dropped, isLandmark t) ↔ isLandmark (statementWithin room c).rest.peek) ∧
        (isLandmark (statementWithin room c).rest.peek →
          (statementWithin room c).rest.upcoming.length < c.upcoming.length) := by
  have hstart := Cursor.proper_ofTokens_ofSource source
  have hfound := h.turn.later.trans (statementWithin_forward room c)
  have hinput := hfound.upcoming
  rw [Cursor.upcoming_ofTokens_ofSource] at hinput
  rcases exists_resumes inBlock (hfound.proper hstart) with ⟨dropped, hdropped⟩
  rw [← rest_parseNext_of_none h.begun h.fails statements] at hdropped
  exact ⟨hinput, dropped, hdropped, hdropped.drops_iff,
    length_upcoming_lt_of_isLandmark room (h.turn.later.proper hstart)⟩

def blockCommentSample : Source :=
  Utf8.encode "if a \x7b\nlet # c\n\x7d\n"

/-- The place where the block of the sample begins. -/
def blockCommentStart : Cursor :=
  (Cursor.ofTokens (Token.ofSource blockCommentSample)).advance.advance.advance.advance

/-- In the block of the sample, the comment after `let` is passed over. -/
theorem mistake_drops_comment_sample :
    Mistake blockCommentSample 255 true blockCommentStart ∧
      (∃ dropped,
        Resumes true (statementWithin 255 blockCommentStart).rest
          (parseNext true (statementWithin 255) [] blockCommentStart).rest dropped ∧
        dropped.map Token.lexeme = ["# c"] ∧
        (statementWithin 255 blockCommentStart).rest.upcoming.length <
          blockCommentStart.upcoming.length) ∧
      (Script.read blockCommentSample).1 =
        ⟨[.cond (.name "a" ⟨3, 4⟩) [.blank ⟨14, 15⟩] ⟨5, 16⟩ .absent ⟨0, 16⟩]⟩ := by
  have hopens : Opens (Expr.parse 256 Operator.loosest) (parseAll 255 true)
      (Cursor.ofTokens (Token.ofSource blockCommentSample)) blockCommentStart :=
    ⟨by decide +kernel, .inl ⟨by decide +kernel, by decide +kernel, by decide +kernel,
      by decide +kernel⟩⟩
  have hmistake : Mistake blockCommentSample 255 true blockCommentStart :=
    ⟨.block .start hopens, by decide +kernel, Option.isNone_iff_eq_none.mp (by decide +kernel)⟩
  have hfound : isLandmark (statementWithin 255 blockCommentStart).rest.peek := by
    decide +kernel
  have hlexeme : (statementWithin 255 blockCommentStart).rest.peek.lexeme = "# c" := by
    decide +kernel
  rcases mistake_drops_landmark_iff hmistake [] with ⟨_, dropped, hresumes, _, htaken⟩
  refine ⟨hmistake, ⟨dropped, hresumes, ?_, htaken hfound⟩, by decide +kernel⟩
  rw [hresumes.landmark hfound, List.map_cons, hlexeme, List.map_nil]

end Stmt
end Shellward
