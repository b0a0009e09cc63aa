import Shellward.Grammar.Stmt
import Shellward.Proofs.Grammar.Expressions
import Shellward.Proofs.Hereditary

/-!
# Reading statements

The reader of statements goes on after a mistake, but a mistake is always
reported.  So when nothing is reported, what is read is what the grammar derives;
and what the grammar derives within the room given is read without a report.

Main results:

- Theorem `Stmt.parseAll_sound`: statements that are read without a report are
  derived, and stay within the limit of nesting.
- Theorem `Stmt.DerivesAll.reads_parseAll`: statements that are derived within the
  limit are read without a report.
- Theorem `Stmt.parseAll_honest`: reading statements fails only with a report.
-/

namespace Shellward

open Shellward.Parser

namespace Stmt

/-! ### Failures are reported -/

/-- The combinators make no parser that fails without a report. -/
theorem honest_hereditary : Hereditary @Honest where
  pure := Honest.pure
  fail := Honest.fail
  peek := Honest.peek
  peekNext := Honest.peekNext
  take := Honest.take
  skipWhile := Honest.skipWhile
  bind := Honest.bind
  attempt _ := Honest.attempt
  iterate := Honest.iterate

/-- Reading statements fails only with a report. -/
theorem parseAll_honest (room : Nat) (inBlock : Bool) : Honest (parseAll room inBlock) :=
  honest_hereditary.statements room inBlock

/-! ### What is read is derived -/

/-- What is read as the end of a clause is one. -/
theorem parseLineEnd_sound {after : Clause} {keyword : Option String} {c c' : Cursor}
    (h : Accepts (parseLineEnd after keyword) c () c') (hc : c.Proper) :
    c'.Proper ∧ Terminator c.upcoming c'.upcoming := by
  unfold parseLineEnd at h
  rcases accepts_bind.mp h with ⟨t, c₁, hpeek, h⟩
  rcases accepts_peek.mp hpeek with ⟨rfl, rfl⟩
  split at h
  · rename_i hkind
    rcases accepts_bind.mp h with ⟨_, c₂, htake, h⟩
    rcases accepts_take.mp htake with ⟨rfl, rfl⟩
    rcases accepts_pure.mp h with ⟨_, rfl⟩
    rw [hc.upcoming_eq (by simp [hkind])]
    exact ⟨hc.advance, .line hkind⟩
  · rename_i hkind
    rcases accepts_pure.mp h with ⟨_, rfl⟩
    rw [hc.upcoming_of_eof hkind]
    exact ⟨hc, .last hkind⟩
  · exact absurd h not_accepts_fail

/-- What a statement relies on: inside `blocks` blocks, its expressions and the
contents of its blocks are read as the grammar has them and within the limit. -/
structure PartsSound (limit blocks : Nat) (expression : Parser (Expr Span))
    (contents : Parser (List (Stmt Span))) : Prop where
  expression : ∀ ⦃c c' : Cursor⦄ ⦃e : Expr Span⦄, Accepts expression c e c' → c.Proper →
    c'.Proper ∧ e.Derives .equality c.upcoming c'.upcoming ∧ blocks + e.need ≤ limit
  contents : ∀ ⦃c c' : Cursor⦄ ⦃body : List (Stmt Span)⦄, Accepts contents c body c' → c.Proper →
    c'.Proper ∧ DerivesAll c.upcoming body c'.upcoming ∧ blocks + 1 ≤ limit ∧
      AllWithin limit (blocks + 1) body

section Soundness

variable {limit blocks : Nat} {expression : Parser (Expr Span)}
variable {contents : Parser (List (Stmt Span))} {c c' : Cursor} {s : Stmt Span}

/-- What is read as a comment is one. -/
theorem parseComment_sound (h : Accepts parseComment c s c') (hc : c.Proper)
    (hkind : c.peek.kind = .comment) (hblocks : blocks ≤ limit) :
    c'.Proper ∧ Derives c.upcoming s c'.upcoming ∧ s.Within limit blocks := by
  unfold parseComment at h
  rcases accepts_bind.mp h with ⟨t, c₁, htake, h⟩
  rcases accepts_take.mp htake with ⟨rfl, rfl⟩
  rcases accepts_bind.mp h with ⟨_, c₂, hend, h⟩
  rcases parseLineEnd_sound hend hc.advance with ⟨hc₂, hterminator⟩
  rcases accepts_pure.mp h with ⟨rfl, rfl⟩
  rw [hc.upcoming_eq (by simp [hkind])]
  exact ⟨hc₂, .comment hkind hterminator, hblocks⟩

/-- What is read as a blank line is one. -/
theorem parseBlank_sound (h : Accepts parseBlank c s c') (hc : c.Proper)
    (hkind : c.peek.kind = .newLine) (hblocks : blocks ≤ limit) :
    c'.Proper ∧ Derives c.upcoming s c'.upcoming ∧ s.Within limit blocks := by
  unfold parseBlank at h
  rcases accepts_bind.mp h with ⟨t, c₁, htake, h⟩
  rcases accepts_take.mp htake with ⟨rfl, rfl⟩
  rcases accepts_pure.mp h with ⟨rfl, rfl⟩
  rw [hc.upcoming_eq (by simp [hkind])]
  exact ⟨hc.advance, .blank hkind, hblocks⟩

/-- What is read as a target is a name. -/
theorem parseTarget_sound {t : Token} (h : Accepts parseTarget c t c') :
    c.peek.kind = .identifier ∧ t = c.peek ∧ c' = c.advance := by
  unfold parseTarget at h
  rcases accepts_bind.mp h with ⟨u, c₁, hpeek, h⟩
  rcases accepts_peek.mp hpeek with ⟨rfl, rfl⟩
  split at h
  · rename_i hkind
    exact ⟨hkind, accepts_take.mp h⟩
  · exact absurd h not_accepts_fail
  · exact absurd h not_accepts_fail

/-- What is read as an assignment is one. -/
theorem parseAssign_sound (hparts : PartsSound limit blocks expression contents)
    (h : Accepts (parseAssign expression) c s c') (hc : c.Proper)
    (hkind : c.peek.kind = .letWord) :
    c'.Proper ∧ Derives c.upcoming s c'.upcoming ∧ s.Within limit blocks := by
  unfold parseAssign at h
  rcases accepts_bind.mp h with ⟨start, c₁, htake, h⟩
  rcases accepts_take.mp htake with ⟨rfl, rfl⟩
  rcases accepts_bind.mp h with ⟨target, c₂, htarget, h⟩
  rcases parseTarget_sound htarget with ⟨hname, rfl, rfl⟩
  rcases accepts_bind.mp h with ⟨sign, c₃, hrequire, h⟩
  rcases accepts_require.mp hrequire with ⟨hsign, rfl, rfl⟩
  rcases accepts_bind.mp h with ⟨value, c₄, hvalue, h⟩
  rcases hparts.expression hvalue hc.advance.advance.advance with ⟨hc₄, hderives, hneed⟩
  rcases accepts_bind.mp h with ⟨_, c₅, hend, h⟩
  rcases parseLineEnd_sound hend hc₄ with ⟨hc₅, hterminator⟩
  rcases accepts_pure.mp h with ⟨rfl, rfl⟩
  rw [hc.upcoming_eq (by simp [hkind]), hc.advance.upcoming_eq (by simp [hname]),
    hc.advance.advance.upcoming_eq (by simp [hsign])]
  exact ⟨hc₅, .assign hkind hname hsign hderives hterminator, hneed⟩

/-- What is read as a block is one, and there is room for it. -/
theorem parseBlock_sound (hparts : PartsSound limit blocks expression contents)
    {body : List (Stmt Span)} {place : Span}
    (h : Accepts (parseBlock contents) c (body, place) c') (hc : c.Proper) :
    c'.Proper ∧ DerivesBlock c.upcoming body place c'.upcoming ∧ blocks + 1 ≤ limit ∧
      AllWithin limit (blocks + 1) body := by
  unfold parseBlock at h
  rcases accepts_bind.mp h with ⟨start, c₁, hrequire, h⟩
  rcases accepts_require.mp hrequire with ⟨hleft, rfl, rfl⟩
  rcases accepts_bind.mp h with ⟨line, c₂, hrequire, h⟩
  rcases accepts_require.mp hrequire with ⟨hline, rfl, rfl⟩
  rcases accepts_bind.mp h with ⟨inside, c₃, hcontents, h⟩
  rcases hparts.contents hcontents hc.advance.advance with ⟨hc₃, hderives, hblocks, hwithin⟩
  rcases accepts_bind.mp h with ⟨t, c₄, hpeek, h⟩
  rcases accepts_peek.mp hpeek with ⟨rfl, rfl⟩
  split at h
  · rename_i hright
    rcases accepts_bind.mp h with ⟨close, c₅, htake, h⟩
    rcases accepts_take.mp htake with ⟨rfl, rfl⟩
    rcases accepts_pure.mp h with ⟨heq, rfl⟩
    rcases Prod.mk.inj heq with ⟨rfl, rfl⟩
    rw [hc₃.upcoming_eq (by simp [hright])] at hderives
    rw [hc.upcoming_eq (by simp [hleft]), hc.advance.upcoming_eq (by simp [hline])]
    exact ⟨hc₃.advance, .braces hleft hline hderives hright, hblocks, hwithin⟩
  · exact absurd h not_accepts_fail

/-- What is read as a condition and its block is one. -/
theorem parseBranch_sound (hparts : PartsSound limit blocks expression contents)
    {test : Expr Span} {body : List (Stmt Span)} {place : Span}
    (h : Accepts (parseBranch expression contents) c (test, body, place) c') (hc : c.Proper) :
    c'.Proper ∧ blocks + test.need ≤ limit ∧ blocks + 1 ≤ limit ∧
      AllWithin limit (blocks + 1) body ∧
      ∃ middle, test.Derives .equality c.upcoming middle ∧
        DerivesBlock middle body place c'.upcoming := by
  unfold parseBranch at h
  rcases accepts_bind.mp h with ⟨condition, c₁, htest, h⟩
  rcases hparts.expression htest hc with ⟨hc₁, hderives, hneed⟩
  rcases accepts_bind.mp h with ⟨⟨inside, around⟩, c₂, hblock, h⟩
  rcases parseBlock_sound hparts hblock hc₁ with ⟨hc₂, hblock, hblocks, hwithin⟩
  rcases accepts_pure.mp h with ⟨heq, rfl⟩
  simp only [Prod.mk.injEq] at heq
  rcases heq with ⟨rfl, rfl, rfl⟩
  exact ⟨hc₂, hneed, hblocks, hwithin, _, hderives, hblock⟩

/-- One round of the loop over the conditions of a conditional. -/
theorem parseElseIf_sound (hparts : PartsSound limit blocks expression contents)
    {before : List (Expr Span × List (Stmt Span) × Span)}
    {answer : Option (List (Expr Span × List (Stmt Span) × Span))}
    (h : Accepts (parseElseIf expression contents before) c answer c') (hc : c.Proper) :
    (answer = none ∧ c' = c) ∨
      ∃ test body place, answer = some ((test, body, place) :: before) ∧ c'.Proper ∧
        c'.upcoming.length < c.upcoming.length ∧
        ∀ a rest, Else.Derives c'.upcoming a rest → a.Within limit blocks →
          Else.Derives c.upcoming (.elseIf test body place a) rest ∧
            (Else.elseIf test body place a).Within limit blocks := by
  unfold parseElseIf at h
  rcases accepts_bind.mp h with ⟨first, c₁, hpeek, h⟩
  rcases accepts_peek.mp hpeek with ⟨rfl, rfl⟩
  rcases accepts_bind.mp h with ⟨second, c₂, hpeek, h⟩
  rcases accepts_peekNext.mp hpeek with ⟨rfl, rfl⟩
  split at h
  · rename_i hkind
    right
    rcases accepts_bind.mp h with ⟨_, c₃, htake, h⟩
    rcases accepts_take.mp htake with ⟨rfl, rfl⟩
    rcases accepts_bind.mp h with ⟨_, c₄, htake, h⟩
    rcases accepts_take.mp htake with ⟨rfl, rfl⟩
    rcases accepts_bind.mp h with ⟨⟨test, body, place⟩, c₅, hbranch, h⟩
    rcases accepts_pure.mp h with ⟨rfl, rfl⟩
    rcases parseBranch_sound hparts hbranch hc.advance.advance with
      ⟨hc₅, hneed, hblocks, hwithin, middle, htest, hblock⟩
    have hword := hc.upcoming_eq (by simp [hkind.1])
    have hstart : c.advance.peek = c.peekNext := hc.peek_advance (by simp [hkind.1])
    rw [hc.advance.upcoming_eq (by simp [hstart, hkind.2]), hstart] at hword
    refine ⟨test, body, place, rfl, hc₅, ?_, ?_⟩
    · have := htest.length_lt
      have := hblock.length_lt
      rw [hword]
      simp only [List.length_cons]
      omega
    · intro a rest ha hinside
      rw [hword]
      exact ⟨.elseIf hkind.1 hkind.2 htest hblock ha, hneed, hblocks, hwithin, hinside⟩
  · rcases accepts_pure.mp h with ⟨rfl, rfl⟩
    exact .inl ⟨rfl, rfl⟩

/-- The conditions of a conditional: what is derived after them, with them in
front, is derived from where they begin. -/
theorem parseElseIfs_sound (hparts : PartsSound limit blocks expression contents)
    {before all : List (Expr Span × List (Stmt Span) × Span)}
    (h : Accepts (iterate (parseElseIf expression contents) before) c all c') (hc : c.Proper) :
    c'.Proper ∧ ∃ branches, all = branches.reverse ++ before ∧
      ∀ a rest, Else.Derives c'.upcoming a rest → a.Within limit blocks →
        Else.Derives c.upcoming (Else.ofBranches a branches) rest ∧
          (Else.ofBranches a branches).Within limit blocks := by
  have round : ∀ {s s₁ : List (Expr Span × List (Stmt Span) × Span)} {c c₁ : Cursor}, c.Proper →
      Accepts (parseElseIf expression contents s) c (some s₁) c₁ →
        c₁.Proper ∧ c₁.upcoming.length < c.upcoming.length := by
    intro s s₁ c c₁ hc h
    rcases parseElseIf_sound hparts h hc with ⟨hnone, _⟩ | ⟨_, _, _, _, hc₁, hlt, _⟩
    · simp at hnone
    · exact ⟨hc₁, hlt⟩
  have hrounds := Accepts.rounds (fun _ c => c.Proper) round h hc
  clear h
  induction hrounds with
  | done h =>
      rcases parseElseIf_sound hparts h hc with ⟨_, rfl⟩ | ⟨_, _, _, hsome, _⟩
      · exact ⟨hc, [], rfl, fun a rest ha hwithin => ⟨ha, hwithin⟩⟩
      · simp at hsome
  | next h _ ih =>
      rcases parseElseIf_sound hparts h hc with
        ⟨hnone, _⟩ | ⟨test, body, place, hsome, hc₁, _, hone⟩
      · simp at hnone
      · rcases ih hc₁ with ⟨hc', branches, rfl, hmore⟩
        simp only [Option.some.injEq] at hsome
        refine ⟨hc', (test, body, place) :: branches, by simp [hsome], ?_⟩
        intro a rest ha hwithin
        rcases hmore a rest ha hwithin with ⟨hderives, hinside⟩
        exact hone _ rest hderives hinside

/-- What is read as the last block of a conditional is one. -/
theorem parseOtherwise_sound (hparts : PartsSound limit blocks expression contents)
    {a : Else Span} (h : Accepts (parseOtherwise contents) c a c') (hc : c.Proper) :
    c'.Proper ∧ Else.Derives c.upcoming a c'.upcoming ∧ a.Within limit blocks := by
  unfold parseOtherwise at h
  rcases accepts_bind.mp h with ⟨t, c₁, hpeek, h⟩
  rcases accepts_peek.mp hpeek with ⟨rfl, rfl⟩
  split at h
  · rename_i hkind
    rcases accepts_bind.mp h with ⟨_, c₂, htake, h⟩
    rcases accepts_take.mp htake with ⟨rfl, rfl⟩
    rcases accepts_bind.mp h with ⟨⟨body, place⟩, c₃, hblock, h⟩
    rcases accepts_pure.mp h with ⟨rfl, rfl⟩
    rcases parseBlock_sound hparts hblock hc.advance with ⟨hc₃, hderives, hblocks, hwithin⟩
    rw [hc.upcoming_eq (by simp [hkind])]
    exact ⟨hc₃, .block hkind hderives, hblocks, hwithin⟩
  · rcases accepts_pure.mp h with ⟨rfl, rfl⟩
    exact ⟨hc, .absent, trivial⟩

/-- What is read as a conditional is one. -/
theorem parseCond_sound (hparts : PartsSound limit blocks expression contents)
    (h : Accepts (parseCond expression contents) c s c') (hc : c.Proper)
    (hkind : c.peek.kind = .ifWord) :
    c'.Proper ∧ Derives c.upcoming s c'.upcoming ∧ s.Within limit blocks := by
  unfold parseCond at h
  rcases accepts_bind.mp h with ⟨start, c₁, htake, h⟩
  rcases accepts_take.mp htake with ⟨rfl, rfl⟩
  rcases accepts_bind.mp h with ⟨⟨test, body, place⟩, c₂, hbranch, h⟩
  rcases parseBranch_sound hparts hbranch hc.advance with
    ⟨hc₂, hneed, hblocks, hwithin, middle, htest, hblock⟩
  rcases accepts_bind.mp h with ⟨branches, c₃, hbranches, h⟩
  rcases parseElseIfs_sound hparts hbranches hc₂ with ⟨hc₃, inOrder, rfl, helse⟩
  rcases accepts_bind.mp h with ⟨last, c₄, hlast, h⟩
  rcases parseOtherwise_sound hparts hlast hc₃ with ⟨hc₄, hderives, hinside⟩
  rcases accepts_bind.mp h with ⟨_, c₅, hend, h⟩
  rcases parseLineEnd_sound hend hc₄ with ⟨hc₅, hterminator⟩
  rcases accepts_pure.mp h with ⟨rfl, rfl⟩
  rcases helse last _ hderives hinside with ⟨helse, hinside⟩
  rw [hc.upcoming_eq (by simp [hkind])]
  simp only [List.append_nil, List.reverse_reverse]
  exact ⟨hc₅, .cond hkind htest hblock helse hterminator, hneed, hblocks, hwithin, hinside⟩

/-- What is read as an expression on a line of its own is one. -/
theorem parseRun_sound (hparts : PartsSound limit blocks expression contents)
    (h : Accepts (parseRun expression) c s c') (hc : c.Proper) :
    c'.Proper ∧ Derives c.upcoming s c'.upcoming ∧ s.Within limit blocks := by
  unfold parseRun at h
  rcases accepts_bind.mp h with ⟨t, c₁, hpeek, h⟩
  rcases accepts_peek.mp hpeek with ⟨rfl, rfl⟩
  rcases accepts_bind.mp h with ⟨next, c₂, hpeek, h⟩
  rcases accepts_peekNext.mp hpeek with ⟨rfl, rfl⟩
  split at h
  · exact absurd h not_accepts_fail
  · split at h
    · exact absurd h not_accepts_fail
    · rcases accepts_bind.mp h with ⟨value, c₃, hvalue, h⟩
      rcases hparts.expression hvalue hc with ⟨hc₃, hderives, hneed⟩
      rcases accepts_bind.mp h with ⟨_, c₄, hend, h⟩
      rcases parseLineEnd_sound hend hc₃ with ⟨hc₄, hterminator⟩
      rcases accepts_pure.mp h with ⟨rfl, rfl⟩
      exact ⟨hc₄, .run hderives hterminator, hneed⟩

/-- What is read as a statement is one, within the limit. -/
theorem parse_sound (hparts : PartsSound limit blocks expression contents)
    (hblocks : blocks ≤ limit) (h : Accepts (parse expression contents) c s c') (hc : c.Proper) :
    c'.Proper ∧ Derives c.upcoming s c'.upcoming ∧ s.Within limit blocks := by
  unfold parse at h
  rcases accepts_bind.mp h with ⟨t, c₁, hpeek, h⟩
  rcases accepts_peek.mp hpeek with ⟨rfl, rfl⟩
  split at h
  · rename_i hkind
    exact parseComment_sound h hc hkind hblocks
  · rename_i hkind
    exact parseBlank_sound h hc hkind hblocks
  · rename_i hkind
    exact parseAssign_sound hparts h hc hkind
  · rename_i hkind
    exact parseCond_sound hparts h hc hkind
  · exact parseRun_sound hparts h hc

/-- One round of the loop over statements: without a report, it stops where the
list ends and otherwise reads a statement. -/
theorem parseNext_sound {inBlock : Bool} {statement : Parser (Stmt Span)}
    (hstatement : Honest statement) {before : List (Stmt Span)}
    {answer : Option (List (Stmt Span))}
    (h : Accepts (parseNext inBlock statement before) c answer c') :
    (answer = none ∧ c' = c ∧ endsList inBlock c.peek = true) ∨
      ∃ s, answer = some (s :: before) ∧ Accepts statement c s c' := by
  unfold parseNext at h
  rcases accepts_bind.mp h with ⟨t, c₁, hpeek, h⟩
  rcases accepts_peek.mp hpeek with ⟨rfl, rfl⟩
  split at h
  · rename_i hends
    rcases accepts_pure.mp h with ⟨rfl, rfl⟩
    exact .inl ⟨rfl, rfl, hends⟩
  · right
    rcases accepts_bind.mp h with ⟨outcome, c₂, hattempt, h⟩
    rw [accepts_attempt] at hattempt
    cases outcome with
    | none =>
        have hproblems := hstatement c (by rw [hattempt])
        rw [hattempt] at hproblems
        exact absurd rfl hproblems
    | some s =>
        rcases accepts_pure.mp h with ⟨rfl, rfl⟩
        exact ⟨s, rfl, hattempt⟩

/-- What is read as a list of statements is one, up to a token that ends it. -/
theorem parseList_sound {inBlock : Bool} {statement : Parser (Stmt Span)}
    (hstatement : Honest statement)
    (hsound : ∀ ⦃c c' : Cursor⦄ ⦃s : Stmt Span⦄, Accepts statement c s c' → c.Proper →
      c'.Proper ∧ Derives c.upcoming s c'.upcoming ∧ s.Within limit blocks)
    {ss : List (Stmt Span)} (h : Accepts (parseList inBlock statement) c ss c') (hc : c.Proper) :
    c'.Proper ∧ DerivesAll c.upcoming ss c'.upcoming ∧ AllWithin limit blocks ss ∧
      endsList inBlock c'.peek = true := by
  unfold parseList at h
  rcases accepts_bind.mp h with ⟨all, c₁, hloop, h⟩
  rcases accepts_pure.mp h with ⟨rfl, rfl⟩
  have round : ∀ {s s₁ : List (Stmt Span)} {c c₁ : Cursor}, c.Proper →
      Accepts (parseNext inBlock statement s) c (some s₁) c₁ →
        c₁.Proper ∧ c₁.upcoming.length < c.upcoming.length := by
    intro s s₁ c c₁ hc h
    rcases parseNext_sound hstatement h with ⟨hnone, _⟩ | ⟨s, _, hs⟩
    · simp at hnone
    · rcases hsound hs hc with ⟨hc₁, hderives, _⟩
      exact ⟨hc₁, hderives.length_lt⟩
  have hrounds := Accepts.rounds (fun _ c => c.Proper) round hloop hc
  have hall : ∀ {before all : List (Stmt Span)} {c c₁ : Cursor}, c.Proper →
      Rounds (parseNext inBlock statement) before c all c₁ →
      ∃ ss, all = ss.reverse ++ before ∧ c₁.Proper ∧ DerivesAll c.upcoming ss c₁.upcoming ∧
        AllWithin limit blocks ss ∧ endsList inBlock c₁.peek = true := by
    intro before all c c₁ hc hrounds
    induction hrounds with
    | done h =>
        rcases parseNext_sound hstatement h with ⟨_, rfl, hends⟩ | ⟨_, hsome, _⟩
        · exact ⟨[], rfl, hc, .nil, trivial, hends⟩
        · simp at hsome
    | next h _ ih =>
        rcases parseNext_sound hstatement h with ⟨hnone, _⟩ | ⟨s, hsome, hs⟩
        · simp at hnone
        · rcases hsound hs hc with ⟨hc₁, hderives, hwithin⟩
          rcases ih hc₁ with ⟨ss, rfl, hc', hmore, hinside, hends⟩
          simp only [Option.some.injEq] at hsome
          exact ⟨s :: ss, by simp [hsome], hc', .cons hderives hmore, ⟨hwithin, hinside⟩, hends⟩
  rcases hall hc hrounds with ⟨ss, rfl, hc', hderives, hwithin, hends⟩
  simp only [List.append_nil, List.reverse_reverse]
  exact ⟨hc', hderives, hwithin, hends⟩

end Soundness

/-- The reader of the contents of a block, with `room` outside of it. -/
def contentsWithin : (room : Nat) → Parser (List (Stmt Span))
  | 0 => refuseBlock
  | room + 1 => parseAll room true

/-- The reader of a statement, with room for `room` blocks and expressions. -/
def statementWithin (room : Nat) : Parser (Stmt Span) :=
  parse (Expr.parse room Operator.loosest) (contentsWithin room)

/-- With any room, statements are read by the loop over statements. -/
theorem parseAll_eq (room : Nat) (inBlock : Bool) :
    parseAll room inBlock = parseList inBlock (statementWithin room) := by
  cases room <;> rfl

section Hereditary

variable {K : ∀ {α : Type}, Parser α → Prop} (hK : Hereditary K)
include hK

/-- The reader of the contents of a block has what the combinators keep. -/
theorem contentsWithin_hereditary (room : Nat) : K (contentsWithin room) := by
  cases room with
  | zero => exact hK.bind hK.peek fun _ => hK.fail _ _
  | succ room => exact hK.statements room true

/-- Every reader of a statement shares what the combinators keep. -/
theorem statementWithin_hereditary (room : Nat) : K (statementWithin room) :=
  hK.statement (hK.expression room _) (contentsWithin_hereditary hK room)

end Hereditary

/-- A statement that cannot be read is reported. -/
theorem statementWithin_honest (room : Nat) : Honest (statementWithin room) :=
  statementWithin_hereditary honest_hereditary room

/-- With any room, the parts of statements are read as the grammar has them. -/
theorem partsSound {limit : Nat} (room : Nat) : ∀ {blocks : Nat}, blocks + room = limit →
    PartsSound limit blocks (Expr.parse room Operator.loosest) (contentsWithin room) := by
  induction room with
  | zero =>
      intro blocks hlimit
      refine ⟨?_, ?_⟩
      · intro c c' e he hc
        have hread := Expr.parse_sound 0 he hc
        have := hread.need_le
        exact ⟨hread.proper, hread.derives, by omega⟩
      · intro c c' body hbody hc
        rcases accepts_bind.mp hbody with ⟨t, c₁, _, hfail⟩
        exact absurd hfail not_accepts_fail
  | succ room ih =>
      intro blocks hlimit
      refine ⟨?_, ?_⟩
      · intro c c' e he hc
        have hread := Expr.parse_sound (room + 1) he hc
        have := hread.need_le
        exact ⟨hread.proper, hread.derives, by omega⟩
      · intro c c' body hbody hc
        have hinside : blocks + 1 + room = limit := by omega
        rw [contentsWithin, parseAll_eq] at hbody
        rcases parseList_sound (statementWithin_honest room)
            (fun _ _ _ hs hc => parse_sound (ih hinside) (by omega) hs hc) hbody hc with
          ⟨hc', hderives, hwithin, _⟩
        exact ⟨hc', hderives, by omega, hwithin⟩

/-- Statements that are read without a report are derived, stay within the limit
and end where their list ends. -/
theorem parseAll_sound {limit blocks room : Nat} {inBlock : Bool} {c c' : Cursor}
    {ss : List (Stmt Span)} (hlimit : blocks + room = limit)
    (h : Accepts (parseAll room inBlock) c ss c') (hc : c.Proper) :
    c'.Proper ∧ DerivesAll c.upcoming ss c'.upcoming ∧ AllWithin limit blocks ss ∧
      endsList inBlock c'.peek = true := by
  rw [parseAll_eq] at h
  refine parseList_sound (statementWithin_honest room) ?_ h hc
  intro c c' s hs hc
  exact parse_sound (partsSound room hlimit) (by omega) hs hc

/-! ### What is derived is read -/

/-- The end of a clause is read. -/
theorem reads_lineEnd {input rest : List Token} (after : Clause) (keyword : Option String)
    (h : Terminator input rest) : Reads (parseLineEnd after keyword) input () rest := by
  unfold parseLineEnd
  cases h with
  | line hkind =>
      refine Reads.peek.bind ?_
      simp only [hkind]
      exact (Reads.take (by simp [hkind])).bind Reads.pure
  | last hkind =>
      refine Reads.peek.bind ?_
      simp only [hkind]
      exact Reads.pure

/-- An expression ends where its clause does. -/
theorem stops_of_terminator {input rest : List Token} (h : Terminator input rest) :
    Expr.Stops Operator.loosest input := by
  cases h with
  | line hkind => exact Expr.stops_of_kind _ (by simp [hkind]) (by rw [hkind]; rfl)
  | last hkind => exact Expr.stops_of_kind _ (by simp [hkind]) (by rw [hkind]; rfl)

/-- A condition ends where its block begins. -/
theorem stops_of_block {input rest : List Token} {body : List (Stmt Span)} {place : Span}
    (h : DerivesBlock input body place rest) : Expr.Stops Operator.loosest input := by
  cases h with
  | braces hleft _ _ _ => exact Expr.stops_of_kind _ (by simp [hleft]) (by rw [hleft]; rfl)

/-- The tokens to come begin with one that ends the list. -/
def Ends (inBlock : Bool) (rest : List Token) : Prop :=
  ∃ t ts, rest = t :: ts ∧ endsList inBlock t = true

section Completeness

variable {limit blocks room : Nat} {input first second third rest : List Token}

/-- An expression that is derived within the limit is read. -/
theorem reads_expression {e : Expr Span} (h : e.Derives .equality input rest)
    (hlimit : blocks + room = limit) (hneed : blocks + e.need ≤ limit)
    (hstops : Expr.Stops Operator.loosest rest) :
    Reads (Expr.parse room Operator.loosest) input e rest :=
  h.reads (by omega) (Nat.zero_le _) hstops

/-- A comment and the end of its line are read. -/
theorem reads_comment {t : Token} (ht : t.kind = .comment) (hend : Terminator input rest) :
    Reads (statementWithin room) (t :: input) (.comment t.lexeme t.span) rest := by
  unfold statementWithin parse
  refine Reads.peek.bind ?_
  simp only [ht]
  exact (Reads.take (by simp [ht])).bind ((reads_lineEnd _ _ hend).bind Reads.pure)

/-- A line end is read as a blank line. -/
theorem reads_blank {t : Token} (ht : t.kind = .newLine) :
    Reads (statementWithin room) (t :: rest) (.blank t.span) rest := by
  unfold statementWithin parse
  refine Reads.peek.bind ?_
  simp only [ht]
  exact (Reads.take (by simp [ht])).bind Reads.pure

/-- A name is read as a target. -/
theorem reads_target {t : Token} (ht : t.kind = .identifier) :
    Reads parseTarget (t :: rest) t rest := by
  unfold parseTarget
  refine Reads.peek.bind ?_
  simp only [ht]
  exact Reads.take (by simp [ht])

/-- An assignment whose value is read is read. -/
theorem reads_assign {start target sign : Token} {value : Expr Span}
    (hstart : start.kind = .letWord) (htarget : target.kind = .identifier)
    (hsign : sign.kind = .assign)
    (hvalue : Reads (Expr.parse room Operator.loosest) input value first)
    (hend : Terminator first rest) :
    Reads (statementWithin room) (start :: target :: sign :: input)
      (.assign target.lexeme target.span value (start.span.merge value.place)) rest := by
  unfold statementWithin parse
  refine Reads.peek.bind ?_
  simp only [hstart]
  refine (Reads.take (by simp [hstart])).bind ((reads_target htarget).bind ?_)
  refine (Reads.require hsign (by simp)).bind (hvalue.bind ?_)
  exact (reads_lineEnd _ _ hend).bind Reads.pure

/-- An expression that is read is read on a line of its own. -/
theorem reads_run {value : Expr Span} (hderives : value.Derives .equality input first)
    (hvalue : Reads (Expr.parse room Operator.loosest) input value first)
    (hend : Terminator first rest) :
    Reads (statementWithin room) input (.run value value.place) rest := by
  rcases hderives.exists_head with ⟨t, ts, rfl, hbegins⟩
  have hassign : ¬ (t.kind = .identifier ∧ (ts.headD t).kind = .assign) := by
    rintro ⟨hname, hnext⟩
    cases ts with
    | nil =>
        rw [List.headD_nil, hname] at hnext
        simp at hnext
    | cons u us =>
        have hrest := hderives.rest_eq_of_assign t u us rfl hname hnext
        rw [List.headD_cons] at hnext
        rw [hrest] at hend
        cases hend with
        | line hkind => simp [hkind] at hnext
        | last hkind => simp [hkind] at hnext
  have hrun : Reads (parseRun (Expr.parse room Operator.loosest)) (t :: ts)
      (.run value value.place) rest := by
    unfold parseRun
    refine Reads.peek.bind (Reads.peekNext.bind ?_)
    rw [if_neg (by cases hkind : t.kind <;> simp_all [beginsExpression, Expr.Begins]),
      if_neg hassign]
    exact hvalue.bind ((reads_lineEnd _ _ hend).bind Reads.pure)
  unfold statementWithin parse
  refine Reads.peek.bind ?_
  split
  · rename_i hkind
    simp [hkind, Expr.Begins] at hbegins
  · rename_i hkind
    simp [hkind, Expr.Begins] at hbegins
  · rename_i hkind
    simp [hkind, Expr.Begins] at hbegins
  · rename_i hkind
    simp [hkind, Expr.Begins] at hbegins
  · exact hrun

/-- A condition and a block that are read are read as a branch. -/
theorem reads_branch {contents : Parser (List (Stmt Span))} {test : Expr Span}
    {body : List (Stmt Span)} {place : Span}
    (htest : Reads (Expr.parse room Operator.loosest) input test first)
    (hblock : Reads (parseBlock contents) first (body, place) rest) :
    Reads (parseBranch (Expr.parse room Operator.loosest) contents) input (test, body, place)
      rest := by
  unfold parseBranch
  exact htest.bind (hblock.bind Reads.pure)

/-- Statements that are read are read between braces. -/
theorem reads_block {contents : Parser (List (Stmt Span))} {left line right : Token}
    {body : List (Stmt Span)} (hleft : left.kind = .leftBrace) (hline : line.kind = .newLine)
    (hbody : Reads contents input body (right :: rest)) (hright : right.kind = .rightBrace) :
    Reads (parseBlock contents) (left :: line :: input) (body, left.span.merge right.span)
      rest := by
  unfold parseBlock
  refine (Reads.require hleft (by simp)).bind ((Reads.require hline (by simp)).bind ?_)
  refine hbody.bind (Reads.peek.bind ?_)
  rw [if_pos hright]
  exact (Reads.take (by simp [hright])).bind Reads.pure

/-- One more branch of a conditional is read after `else if`. -/
theorem reads_elseIf {word start : Token} {test : Expr Span} {body : List (Stmt Span)}
    {place : Span} (before : List (Expr Span × List (Stmt Span) × Span))
    (hword : word.kind = .elseWord) (hstart : start.kind = .ifWord)
    (hbranch : Reads (parseBranch (Expr.parse room Operator.loosest) (contentsWithin room)) input
      (test, body, place) rest) :
    Reads (parseElseIf (Expr.parse room Operator.loosest) (contentsWithin room) before)
      (word :: start :: input) (some ((test, body, place) :: before)) rest := by
  unfold parseElseIf
  refine Reads.peek.bind (Reads.peekNext.bind ?_)
  rw [if_pos ⟨hword, by simpa using hstart⟩]
  refine (Reads.take (by simp [hword])).bind ((Reads.take (by simp [hstart])).bind ?_)
  exact hbranch.bind Reads.pure

/-- Without `else if`, no further branch is read. -/
theorem reads_noElseIf {t : Token} (before : List (Expr Span × List (Stmt Span) × Span))
    (h : ¬ (t.kind = .elseWord ∧ (rest.headD t).kind = .ifWord)) :
    Reads (iterate (parseElseIf (Expr.parse room Operator.loosest) (contentsWithin room)) before)
      (t :: rest) before (t :: rest) := by
  refine Reads.iterate_done ?_
  unfold parseElseIf
  refine Reads.peek.bind (Reads.peekNext.bind ?_)
  rw [if_neg h]
  exact Reads.pure

/-- A block that is read is read after `else`. -/
theorem reads_otherwise {word : Token} {body : List (Stmt Span)} {place : Span}
    (hword : word.kind = .elseWord)
    (hblock : Reads (parseBlock (contentsWithin room)) input (body, place) rest) :
    Reads (parseOtherwise (contentsWithin room)) (word :: input) (.block body place) rest := by
  unfold parseOtherwise
  refine Reads.peek.bind ?_
  rw [if_pos hword]
  exact (Reads.take (by simp [hword])).bind (hblock.bind Reads.pure)

/-- Without `else`, no last block is read. -/
theorem reads_absent {t : Token} (ht : t.kind ≠ .elseWord) :
    Reads (parseOtherwise (contentsWithin room)) (t :: rest) .absent (t :: rest) := by
  unfold parseOtherwise
  refine Reads.peek.bind ?_
  rw [if_neg ht]
  exact Reads.pure

/-- A conditional whose branches are read is read. -/
theorem reads_cond {start : Token} {test : Expr Span} {body : List (Stmt Span)} {place : Span}
    {branches : List (Expr Span × List (Stmt Span) × Span)} {last : Else Span}
    (hstart : start.kind = .ifWord)
    (hbranch : Reads (parseBranch (Expr.parse room Operator.loosest) (contentsWithin room)) input
      (test, body, place) first)
    (hbranches : Reads (iterate (parseElseIf (Expr.parse room Operator.loosest)
      (contentsWithin room)) []) first branches.reverse second)
    (hlast : Reads (parseOtherwise (contentsWithin room)) second last third)
    (hend : Terminator third rest) :
    Reads (statementWithin room) (start :: input)
      (.cond test body place (Else.ofBranches last branches)
        (start.span.merge ((Else.ofBranches last branches).lastPlace place))) rest := by
  unfold statementWithin parse
  refine Reads.peek.bind ?_
  simp only [hstart]
  refine (Reads.take (by simp [hstart])).bind (hbranch.bind (hbranches.bind (hlast.bind ?_)))
  rw [List.reverse_reverse]
  exact (reads_lineEnd _ _ hend).bind Reads.pure

/-- A statement that is read is put in front of those read before. -/
theorem reads_next {inBlock : Bool} {statement : Parser (Stmt Span)} {t : Token} {s : Stmt Span}
    (before : List (Stmt Span)) (ht : endsList inBlock t = false)
    (h : Reads statement (t :: input) s rest) :
    Reads (parseNext inBlock statement before) (t :: input) (some (s :: before)) rest := by
  unfold parseNext
  refine Reads.peek.bind ?_
  rw [if_neg (by simp [ht])]
  exact h.attempt.bind Reads.pure

/-- At a token that ends the list, the loop over statements ends. -/
theorem reads_end {inBlock : Bool} {statement : Parser (Stmt Span)} (before : List (Stmt Span))
    (h : Ends inBlock rest) :
    Reads (iterate (parseNext inBlock statement) before) rest before rest := by
  rcases h with ⟨t, ts, rfl, ht⟩
  refine Reads.iterate_done ?_
  unfold parseNext
  refine Reads.peek.bind ?_
  rw [if_pos ht]
  exact Reads.pure

/-- What the loop over statements reads is read as a list, in order. -/
theorem reads_list {inBlock : Bool} {statement : Parser (Stmt Span)} {ss : List (Stmt Span)}
    (h : Reads (iterate (parseNext inBlock statement) []) input ss.reverse rest) :
    Reads (parseList inBlock statement) input ss rest := by
  unfold parseList
  refine h.bind ?_
  rw [List.reverse_reverse]
  exact Reads.pure

/-- No statement begins where a list of statements ends. -/
theorem Derives.exists_head {s : Stmt Span} (h : Derives input s rest) (inBlock : Bool) :
    ∃ t ts, input = t :: ts ∧ endsList inBlock t = false := by
  cases h with
  | comment hkind _ => exact ⟨_, _, rfl, by simp [endsList, hkind]⟩
  | blank hkind => exact ⟨_, _, rfl, by simp [endsList, hkind]⟩
  | assign hkind _ _ _ _ => exact ⟨_, _, rfl, by simp [endsList, hkind]⟩
  | cond hkind _ _ _ _ => exact ⟨_, _, rfl, by simp [endsList, hkind]⟩
  | run hvalue _ =>
      rcases hvalue.exists_head with ⟨t, ts, heq, hbegins⟩
      refine ⟨t, ts, heq, ?_⟩
      cases hkind : t.kind <;> simp_all [endsList, Expr.Begins]

/-- A block begins with a brace. -/
theorem DerivesBlock.exists_head {body : List (Stmt Span)} {place : Span}
    (h : DerivesBlock input body place rest) :
    ∃ t ts, input = t :: ts ∧ t.kind = .leftBrace := by
  cases h with
  | braces hleft _ _ _ => exact ⟨_, _, rfl, hleft⟩

/-- A clause does not end before an alternative. -/
theorem exists_head_of_terminator (h : Terminator input rest) :
    ∃ t ts, input = t :: ts ∧ t.kind ≠ .elseWord := by
  cases h with
  | line hkind => exact ⟨_, _, rfl, by simp [hkind]⟩
  | last hkind => exact ⟨_, _, rfl, by simp [hkind]⟩

end Completeness

end Stmt

open Stmt

mutual

/-- A statement that is derived within the limit is read without a report. -/
theorem Stmt.Derives.reads : ∀ {input rest : List Token} {s : Stmt Span},
    Stmt.Derives input s rest →
    ∀ {limit blocks room : Nat}, blocks + room = limit → s.Within limit blocks →
      Reads (statementWithin room) input s rest
  | _, _, _, .comment hkind hend, _, _, _, _, _ => reads_comment hkind hend
  | _, _, _, .blank hkind, _, _, _, _, _ => reads_blank hkind
  | _, _, _, .assign hstart htarget hsign hvalue hend, _, _, _, hlimit, hwithin =>
      reads_assign hstart htarget hsign
        (reads_expression hvalue hlimit hwithin (stops_of_terminator hend)) hend
  | _, _, _, .cond hstart htest hblock helse hend, limit, blocks, room, hlimit, hwithin => by
      rcases hwithin with ⟨hneed, hblocks, hbody, hinside⟩
      have htest' := reads_expression htest hlimit hneed (stops_of_block hblock)
      have hblock' := hblock.reads hlimit hblocks hbody
      rcases helse.reads hlimit hinside (exists_head_of_terminator hend) [] with
        ⟨branches, last, middle, rfl, hbranches, hlast⟩
      rw [List.append_nil] at hbranches
      exact reads_cond hstart (reads_branch htest' hblock') hbranches hlast hend
  | _, _, _, .run hvalue hend, _, _, _, hlimit, hwithin =>
      reads_run hvalue (reads_expression hvalue hlimit hwithin (stops_of_terminator hend)) hend

/-- Statements that are derived within the limit are read without a report, up
to where their list ends. -/
theorem Stmt.DerivesAll.reads : ∀ {input rest : List Token} {ss : List (Stmt Span)},
    Stmt.DerivesAll input ss rest → ∀ {limit blocks room : Nat} {inBlock : Bool},
      blocks + room = limit → Stmt.AllWithin limit blocks ss → Ends inBlock rest →
      ∀ before, Reads (iterate (parseNext inBlock (statementWithin room)) before) input
        (ss.reverse ++ before) rest
  | _, _, _, .nil, _, _, _, _, _, _, hends, before => reads_end before hends
  | _, _, _, @Stmt.DerivesAll.cons input middle rest s ss h hmore, limit, blocks, room, inBlock,
      hlimit, hwithin, hends, before => by
      rcases hwithin with ⟨hone, hall⟩
      rcases h.exists_head inBlock with ⟨t, ts, heq, ht⟩
      have hs := h.reads hlimit hone
      have hss := hmore.reads hlimit hall hends (s :: before)
      have hround : Reads (parseNext inBlock (statementWithin room) before) input
          (some (s :: before)) middle := by
        rw [heq] at hs ⊢
        exact reads_next before ht hs
      rw [List.reverse_cons, List.append_assoc]
      exact Reads.iterate_next hround h.length_lt hss

/-- A block that is derived within the limit is read without a report. -/
theorem Stmt.DerivesBlock.reads : ∀ {input rest : List Token} {body : List (Stmt Span)}
    {place : Span}, Stmt.DerivesBlock input body place rest →
      ∀ {limit blocks room : Nat}, blocks + room = limit → blocks + 1 ≤ limit →
        Stmt.AllWithin limit (blocks + 1) body →
          Reads (parseBlock (contentsWithin room)) input (body, place) rest
  | _, _, _, _, @Stmt.DerivesBlock.braces left line right input rest body hleft hline hbody hright,
      limit, blocks, room, hlimit, hblocks, hwithin => by
      refine reads_block hleft hline ?_ hright
      cases room with
      | zero => omega
      | succ room =>
          have hends : Ends true (right :: rest) := ⟨right, rest, rfl, by simp [endsList, hright]⟩
          have hlimit' : blocks + 1 + room = limit := by omega
          have hloop := hbody.reads hlimit' hwithin hends []
          rw [List.append_nil] at hloop
          rw [contentsWithin, parseAll_eq]
          exact reads_list hloop

/-- The alternatives of a conditional that are derived within the limit are read
without a report. -/
theorem Else.Derives.reads : ∀ {input rest : List Token} {a : Else Span},
    Else.Derives input a rest → ∀ {limit blocks room : Nat}, blocks + room = limit →
      a.Within limit blocks →
      (∃ t ts, rest = t :: ts ∧ t.kind ≠ .elseWord) → ∀ before, ∃ branches last middle,
        a = Else.ofBranches last branches ∧
        Reads
          (iterate (parseElseIf (Expr.parse room Operator.loosest) (contentsWithin room)) before)
          input (branches.reverse ++ before) middle ∧
        Reads (parseOtherwise (contentsWithin room)) middle last rest
  | _, _, _, .absent, _, _, _, _, _, hrest, before => by
      rcases hrest with ⟨t, ts, rfl, ht⟩
      exact ⟨[], .absent, _, rfl, reads_noElseIf before (fun h => ht h.1), reads_absent ht⟩
  | _, _, _, @Else.Derives.block word input rest body place hword hblock, _, _, _, hlimit, hwithin,
      _, before => by
      have hlast := reads_otherwise hword (hblock.reads hlimit hwithin.1 hwithin.2)
      refine ⟨[], .block body place, _, rfl, reads_noElseIf before ?_, hlast⟩
      rcases hblock.exists_head with ⟨t, ts, heq, ht⟩
      rw [heq, List.headD_cons, ht]
      simp
  | _, _, _, @Else.Derives.elseIf word start input first second rest test body place a hword hstart
      htest hblock hmore, limit, blocks, room, hlimit, hwithin, hrest, before => by
      rcases hwithin with ⟨hneed, hblocks, hbody, hinside⟩
      have htest' := reads_expression htest hlimit hneed (stops_of_block hblock)
      have hblock' := hblock.reads hlimit hblocks hbody
      have hround := reads_elseIf before hword hstart (reads_branch htest' hblock')
      rcases hmore.reads hlimit hinside hrest ((test, body, place) :: before) with
        ⟨branches, last, middle, rfl, hbranches, hlast⟩
      refine ⟨(test, body, place) :: branches, last, middle, rfl, ?_, hlast⟩
      rw [List.reverse_cons, List.append_assoc]
      refine Reads.iterate_next hround ?_ hbranches
      have := htest.length_lt
      have := hblock.length_lt
      simp only [List.length_cons]
      omega

end

/-- Statements that are derived within the limit are read without a report. -/
theorem Stmt.DerivesAll.reads_parseAll {limit blocks room : Nat} {inBlock : Bool}
    {input rest : List Token} {ss : List (Stmt Span)} (h : Stmt.DerivesAll input ss rest)
    (hlimit : blocks + room = limit) (hwithin : Stmt.AllWithin limit blocks ss)
    (hends : Ends inBlock rest) : Reads (parseAll room inBlock) input ss rest := by
  have hloop := h.reads hlimit hwithin hends []
  rw [List.append_nil] at hloop
  rw [parseAll_eq]
  exact reads_list hloop

end Shellward
