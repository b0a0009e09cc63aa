import Shellward.Proofs.Grammar.Phrases
import Shellward.Proofs.Grammar.Reports

/-!
# What is kept of a script with mistakes

Reading goes on after a mistake, so a script with mistakes is read to a tree as well.  This
tree is what the grammar derives from the tokens that are kept when the statements that were
given up are taken out.  Every problem is paid for by a token that is not kept, and it is
reported at a token.

Main results:

- Theorem `Outcome.Salvaged.bind`: tokens are kept and problems are paid for in sequences.
- Theorem `Outcome.Salvaged.iterate`: the same for loops.
- Theorem `Stmt.parseNext_progress`: every turn of a loop over statements takes a token.
- Theorem `Script.exists_kept`: the tree of a script is derived from tokens of the script,
  and those are fewer than its tokens by at least the number of its problems.
-/

namespace Shellward

open Shellward.Parser

variable {all : List Token}

/-! ### Tokens that are kept -/

/-- What is to come at a place ends a list of tokens, and the end mark is where it belongs. -/
structure Cursor.In (c : Cursor) (all : List Token) : Prop where
  proper : c.Proper
  suffix : c.upcoming <:+ all

/-- A problem that is reported at one of some tokens. -/
def Problem.At (q : Problem Span) (all : List Token) : Prop :=
  ∃ t ∈ all, q.place = t.span

namespace Cursor.In

variable {c c' : Cursor}

/-- A later place is among the same tokens. -/
theorem later (h : c.In all) (hlater : c.Later c') : c'.In all :=
  ⟨hlater.proper h.proper, hlater.upcoming.trans h.suffix⟩

/-- Moving on stays among the same tokens. -/
theorem advance (h : c.In all) : c.advance.In all :=
  h.later (.advance c)

/-- A problem at the next token is reported at a token. -/
theorem at_peek (h : c.In all) (fault : Fault) : Problem.At ⟨fault, c.peek.span⟩ all := by
  refine ⟨c.peek, h.suffix.mem ?_, rfl⟩
  rw [c.upcoming_eq_peek_cons]
  exact List.mem_cons_self

end Cursor.In

/-- Between two places, some tokens are kept and problems are reported.  Every problem is paid
for by a token that is not kept. -/
structure Cursor.Salvages (all : List Token) (c : Cursor) (kept : List Token)
    (problems : List (Problem Span)) (c' : Cursor) : Prop where
  here : c'.In all
  taken : ∃ taken, c.upcoming = taken ++ c'.upcoming ∧ kept.Sublist taken ∧
    kept.length + problems.length ≤ taken.length
  places : ∀ q ∈ problems, q.At all

namespace Cursor.Salvages

variable {c c₁ c₂ : Cursor} {kept kept' : List Token} {problems problems' : List (Problem Span)}

/-- All tokens in between are kept. -/
theorem whole (hc₁ : c₁.In all) (hkept : c.upcoming = kept ++ c₁.upcoming) :
    Salvages all c kept [] c₁ :=
  ⟨hc₁, ⟨kept, hkept, List.Sublist.refl _, Nat.le_refl _⟩, List.forall_mem_nil _⟩

theorem refl (hc : c.In all) : Salvages all c [] [] c :=
  whole hc rfl

/-- What is still to come ends what was to come. -/
theorem suffix (h : Salvages all c kept problems c₁) : c₁.upcoming <:+ c.upcoming := by
  rcases h.taken with ⟨taken, htaken, _⟩
  exact ⟨taken, htaken.symm⟩

/-- The next token is kept. -/
theorem next (hc : c.In all) (hpeek : c.peek.kind ≠ .eof) :
    Salvages all c [c.peek] [] c.advance :=
  whole hc.advance (hc.proper.upcoming_eq hpeek)

/-- What is kept and what is paid for are among the tokens in between. -/
theorem length_le (h : Salvages all c kept problems c₁) :
    kept.length + problems.length + c₁.upcoming.length ≤ c.upcoming.length := by
  rcases h.taken with ⟨taken, htaken, _, hle⟩
  rw [htaken, List.length_append]
  omega

/-- What is kept on the way to a place and from there on is kept. -/
theorem trans (h : Salvages all c kept problems c₁) (h₁ : Salvages all c₁ kept' problems' c₂) :
    Salvages all c (kept ++ kept') (problems ++ problems') c₂ := by
  rcases h.taken with ⟨taken, htaken, hkept, hle⟩
  rcases h₁.taken with ⟨taken', htaken', hkept', hle'⟩
  refine ⟨h₁.here, ⟨taken ++ taken', ?_, hkept.append hkept', ?_⟩,
    List.forall_mem_append.mpr ⟨h.places, h₁.places⟩⟩
  · rw [htaken, htaken', List.append_assoc]
  · simp only [List.length_append]
    omega

/-- No token in between is kept, and there are enough of them to pay for the problems. -/
theorem given_up (hc₁ : c₁.In all) (hsuffix : c₁.upcoming <:+ c.upcoming)
    (hpaid : problems.length + c₁.upcoming.length ≤ c.upcoming.length)
    (hplaces : ∀ q ∈ problems, q.At all) : Salvages all c [] problems c₁ := by
  rcases hsuffix with ⟨taken, htaken⟩
  refine ⟨hc₁, ⟨taken, htaken.symm, List.nil_sublist _, ?_⟩, hplaces⟩
  rw [← htaken, List.length_append] at hpaid
  rw [List.length_nil]
  omega

/-- Tokens that were kept may be given up later. -/
theorem forget (h : Salvages all c kept problems c₁) : Salvages all c [] problems c₁ := by
  have hle := h.length_le
  exact given_up h.here h.suffix (by omega) h.places

end Cursor.Salvages

/-- The outcome of a reader that starts at a place: either a value, related to the tokens that
were kept for it, or a failure, whose last problem is not paid for yet. -/
inductive Outcome.Salvaged {α : Type} (all : List Token) (c : Cursor)
    (R : List Token → α → Cursor → Prop) : Outcome α → Prop where
  | value {kept : List Token} {problems : List (Problem Span)} {a : α} {c' : Cursor}
      (h : Cursor.Salvages all c kept problems c') (hvalue : R kept a c') :
      Salvaged all c R ⟨some a, problems, c'⟩
  | fault {problems : List (Problem Span)} {q : Problem Span} {c' : Cursor}
      (h : Cursor.Salvages all c [] problems c') (hplace : q.At all) :
      Salvaged all c R ⟨none, problems ++ [q], c'⟩

namespace Outcome.Salvaged

variable {α β σ : Type} {c c' : Cursor} {o : Outcome α} {p : Parser α} {f : α → Parser β}
variable {R R₁ : List Token → α → Cursor → Prop} {R' : List Token → β → Cursor → Prop}

/-- The relation to the tokens that are kept may be weakened. -/
theorem imp (h : o.Salvaged all c R) (hR : ∀ {kept a c'}, R kept a c' → R₁ kept a c') :
    o.Salvaged all c R₁ := by
  cases h with
  | value h hvalue => exact .value h (hR hvalue)
  | fault h hplace => exact .fault h hplace

/-- The problems of a failure are paid for, but for the last one. -/
theorem length_problems_le (h : o.Salvaged all c R) (hnone : o.value = none) :
    o.problems.length + o.rest.upcoming.length ≤ c.upcoming.length + 1 := by
  cases h with
  | value => simp at hnone
  | fault h _ =>
      have hle := h.length_le
      simp only [List.length_append, List.length_singleton, List.length_nil] at hle ⊢
      omega

/-- A value that is given keeps no token. -/
theorem pure {a : α} (hc : c.In all) (ha : R [] a c) :
    ((Pure.pure a : Parser α) c).Salvaged all c R :=
  .value (.refl hc) ha

/-- A failure keeps no token and reports its problem. -/
theorem fail {fault : Fault} {place : Span} (hc : c.In all)
    (hplace : Problem.At ⟨fault, place⟩ all) :
    ((Parser.fail fault place : Parser α) c).Salvaged all c R :=
  .fault (.refl hc) hplace

/-- What is read after other tokens that are kept. -/
theorem after {kept : List Token} {problems : List (Problem Span)} (h : o.Salvaged all c' R₁)
    (hfirst : Cursor.Salvages all c kept problems c')
    (hR : ∀ {kept' problems' a c''}, Cursor.Salvages all c' kept' problems' c'' →
      R₁ kept' a c'' → R (kept ++ kept') a c'') :
    Outcome.Salvaged all c R ⟨o.value, problems ++ o.problems, o.rest⟩ := by
  cases h with
  | value h hvalue => exact .value (hfirst.trans h) (hR h hvalue)
  | fault h hplace =>
      have hfault := hfirst.forget.trans h
      rw [List.append_nil] at hfault
      rw [← List.append_assoc]
      exact .fault hfault hplace

/-- A sequence keeps the tokens of both parts. -/
theorem bind (hp : (p c).Salvaged all c R)
    (hf : ∀ {kept problems a c'}, Cursor.Salvages all c kept problems c' → R kept a c' →
      (f a c').Salvaged all c' fun kept' b c'' => R' (kept ++ kept') b c'') :
    ((p >>= f) c).Salvaged all c R' := by
  generalize ho : p c = o
  cases ho ▸ hp with
  | value h hvalue =>
      rw [bind_of_some (by rw [ho]), ho]
      exact (hf h hvalue).after h fun _ hvalue' => hvalue'
  | fault h hplace =>
      rw [bind_of_none (by rw [ho]), ho]
      exact .fault h hplace

/-- A token is taken and kept. -/
theorem take_bind {f : Token → Parser β} (hc : c.In all) (hpeek : c.peek.kind ≠ .eof)
    (h : (f c.peek c.advance).Salvaged all c.advance fun kept b c' => R' (c.peek :: kept) b c') :
    ((take >>= f) c).Salvaged all c R' := by
  rw [take_bind_apply]
  exact h.after (.next hc hpeek) fun _ hvalue => hvalue

/-- A token that is asked for is kept, or is the place of a problem. -/
theorem require_bind {kind : Token.Kind} {fault : Found → Fault} {f : Token → Parser β}
    (hc : c.In all) (hkind : kind ≠ .eof)
    (h : c.peek.kind = kind →
      (f c.peek c.advance).Salvaged all c.advance fun kept b c' => R' (c.peek :: kept) b c') :
    ((require kind fault >>= f) c).Salvaged all c R' := by
  rw [require_bind_apply]
  split
  next hpeek => exact (h hpeek).after (.next hc (hpeek ▸ hkind)) fun _ hvalue => hvalue
  next => exact .fail hc (hc.at_peek _)

/-- A reader that stops at its first mistake keeps all tokens of a value. -/
theorem of_terse (hp : Parser.Terse p) (hforward : Forward p) (hc : c.In all)
    (hvalue : ∀ {a c'}, Accepts p c a c' → ∃ kept, c.upcoming = kept ++ c'.upcoming ∧ R kept a c') :
    (p c).Salvaged all c R := by
  have hlater := hforward c
  generalize ho : p c = o at hlater
  cases ho ▸ hp c with
  | value a c' =>
      rcases hvalue ho with ⟨kept, hkept, hR⟩
      exact .value (.whole (hc.later hlater) hkept) hR
  | fault fault c' =>
      have hc' := hc.later hlater
      have hdropped : Cursor.Salvages all c [] [] c' :=
        .given_up hc' hlater.upcoming (by simpa using hlater.upcoming.length_le)
          (List.forall_mem_nil _)
      exact .fault hdropped (hc'.at_peek fault)

/-! ### Loops -/

/-- What a round adds to a loop: the loop is done, or what the rest of the loop does after the
round is done from where the round starts. -/
inductive Round (all : List Token) (R : σ → List Token → σ → Cursor → Prop) (s : σ) (c : Cursor) :
    List Token → Option σ → Cursor → Prop where
  | done {kept : List Token} {c' : Cursor} (h : R s kept s c') : Round all R s c kept none c'
  | next {kept : List Token} {s' : σ} {c' : Cursor} (hlt : c'.ahead.length < c.ahead.length)
      (h : ∀ {kept' problems final c''}, Cursor.Salvages all c' kept' problems c'' →
        R s' kept' final c'' → R s (kept ++ kept') final c'') : Round all R s c kept (some s') c'

/-- A loop keeps the tokens of its rounds. -/
theorem iterate {step : σ → Parser (Option σ)} {R : σ → List Token → σ → Cursor → Prop}
    (hstep : ∀ s {c : Cursor}, c.In all → (step s c).Salvaged all c (Round all R s c)) (s : σ)
    (hc : c.In all) : (iterate step s c).Salvaged all c (R s) := by
  induction hn : c.ahead.length using Nat.strongRecOn generalizing s c with
  | ind n ih =>
      generalize ho : step s c = o
      rw [Parser.iterate]
      cases ho ▸ hstep s hc with
      | fault h hplace =>
          simp only [ho]
          exact .fault h hplace
      | value h hround =>
          simp only [ho]
          cases hround with
          | done hdone => exact .value h hdone
          | @next s' _ hlt hnext =>
              simp only [hlt, if_true]
              exact (ih _ (hn ▸ hlt) s' h.here rfl).after h hnext

end Outcome.Salvaged

/-! ### Conditionals -/

/-- A relation that holds across some tokens wherever they stand. -/
def Anywhere (D : List Token → List Token → Prop) (kept : List Token) : Prop :=
  ∀ after, D (kept ++ after) after

/-- What holds across some tokens, whatever follows them, holds wherever they stand. -/
theorem Free.anywhere {D : List Token → List Token → Prop} {kept rest : List Token}
    (h : Free D (kept ++ rest) rest) : Anywhere D kept := by
  rcases h with ⟨phrase, heq, hD⟩
  rw [List.append_cancel_right heq]
  exact hD

namespace Stmt

/-- Some tokens are kept for a statement that ends at a place. -/
def KeptForOne (kept : List Token) (s : Stmt Span) (c : Cursor) : Prop :=
  Derives (kept ++ c.upcoming) s c.upcoming

/-- Some tokens are kept for statements that end at a place. -/
def KeptFor (kept : List Token) (ss : List (Stmt Span)) (c : Cursor) : Prop :=
  DerivesAll (kept ++ c.upcoming) ss c.upcoming

/-- What a statement with blocks relies on: its expressions and the contents of its blocks are
derived from the tokens that are kept for them. -/
structure PartsSalvaged (all : List Token) (expression : Parser (Expr Span))
    (contents : Parser (List (Stmt Span))) : Prop where
  expression : ∀ {c : Cursor}, c.In all → (expression c).Salvaged all c
    fun kept e _ => Anywhere (Expr.Derives .equality · e ·) kept
  contents : ∀ {c : Cursor}, c.In all → (contents c).Salvaged all c KeptFor

section Blocks

variable {expression : Parser (Expr Span)} {contents : Parser (List (Stmt Span))} {c : Cursor}

/-- The end of a clause keeps its line end. -/
theorem parseLineEnd_salvaged {after : Clause} {keyword : Option String} (hc : c.In all) :
    (parseLineEnd after keyword c).Salvaged all c
      fun kept _ c' => Terminator (kept ++ c'.upcoming) c'.upcoming := by
  refine .of_terse (parseLineEnd_terse after keyword) (forward_hereditary.lineEnd after keyword) hc
    fun {_ c'} h => ?_
  have hend := (parseLineEnd_sound h hc.proper).2
  rcases hend.suffix with ⟨kept, hkept⟩
  exact ⟨kept, hkept.symm, hkept ▸ hend⟩

variable (hparts : PartsSalvaged all expression contents) (hc : c.In all)
include hparts hc

/-- A block is derived from the tokens that are kept for it. -/
theorem parseBlock_salvaged : (parseBlock contents c).Salvaged all c
    fun kept block _ => Anywhere (DerivesBlock · block.1 block.2 ·) kept := by
  refine .require_bind hc (by simp) fun hleft => .require_bind hc.advance (by simp) fun hline => ?_
  refine (hparts.contents hc.advance.advance).bind fun {kept _ body c'} hkept hbody => ?_
  have hc' := hkept.here
  rw [peek_bind_apply]
  split
  next hright =>
    refine .take_bind hc' (by simp [hright]) (.pure hc'.advance ?_)
    rw [KeptFor, hc'.proper.upcoming_eq (by simp [hright])] at hbody
    have hfree : Free (DerivesBlock · body (c.peek.span.merge c'.peek.span) ·)
        ((c.peek :: c.advance.peek :: (kept ++ [c'.peek])) ++ c'.advance.upcoming)
        c'.advance.upcoming := by
      simpa using (DerivesBlock.braces hleft hline hbody hright).closed.free
    exact hfree.anywhere
  next => exact .fail hc' (hc.at_peek _)

/-- A condition and its block are derived from the tokens that are kept for them. -/
theorem parseBranch_salvaged : (parseBranch expression contents c).Salvaged all c
    fun kept branch _ => ∃ kept₁ kept₂, kept = kept₁ ++ kept₂ ∧
      Anywhere (Expr.Derives .equality · branch.1 ·) kept₁ ∧
      Anywhere (DerivesBlock · branch.2.1 branch.2.2 ·) kept₂ := by
  refine (hparts.expression hc).bind fun {kept₁ _ test c₁} hkept₁ htest => ?_
  refine (parseBlock_salvaged hparts hkept₁.here).bind fun {kept₂ _ block c₂} hkept₂ hblock => ?_
  exact .pure hkept₂.here ⟨kept₁, kept₂, by rw [List.append_nil], htest, hblock⟩

/-- Some tokens are kept for further conditions of a conditional, in front of what is kept for
the rest of it. -/
def KeptForBranches (before : List (Expr Span × List (Stmt Span) × Span)) (kept : List Token)
    (final : List (Expr Span × List (Stmt Span) × Span)) : Prop :=
  ∃ branches, final = branches.reverse ++ before ∧ ∀ {a : Else Span} {kept' : List Token},
    Anywhere (Else.Derives · a ·) kept' →
      Anywhere (Else.Derives · (Else.ofBranches a branches) ·) (kept ++ kept')

/-- One more condition and its block are derived from the tokens that are kept for them. -/
theorem parseElseIf_salvaged (before : List (Expr Span × List (Stmt Span) × Span)) :
    (parseElseIf expression contents before c).Salvaged all c
      (Outcome.Salvaged.Round all (fun s kept final _ => KeptForBranches s kept final)
        before c) := by
  rw [parseElseIf, peek_bind_apply, peekNext_bind_apply]
  split
  next hwords =>
    have hword : c.peek.kind ≠ .eof := by simp [hwords.1]
    have hstart : c.advance.peek.kind = .ifWord := by
      rw [hc.proper.peek_advance hword]
      exact hwords.2
    refine .take_bind hc hword (.take_bind hc.advance (by simp [hstart]) ?_)
    refine (parseBranch_salvaged hparts hc.advance.advance).bind fun {_ _ branch c'} hkept h => ?_
    rcases h with ⟨kept₁, kept₂, rfl, htest, hblock⟩
    refine .pure hkept.here (.next ?_ ?_)
    · have hle := hkept.length_le
      have heq := congrArg List.length (hc.proper.upcoming_eq hword)
      have heq' := congrArg List.length (hc.advance.proper.upcoming_eq (by simp [hstart]))
      simp only [Cursor.length_upcoming, List.length_cons] at hle heq heq'
      omega
    · rintro kept' _ final _ _ ⟨branches, rfl, hbranches⟩
      refine ⟨branch :: branches, by simp, fun {a kept''} ha after => ?_⟩
      simp only [List.cons_append, List.append_assoc, List.append_nil]
      have hrest := hbranches ha after
      rw [List.append_assoc] at hrest
      exact .elseIf hwords.1 hstart (htest _) (hblock _) hrest
  next => exact .pure hc (.done ⟨[], rfl, fun ha => ha⟩)

/-- The last block of a conditional is derived from the tokens that are kept for it. -/
theorem parseOtherwise_salvaged : (parseOtherwise contents c).Salvaged all c
    fun kept a _ => Anywhere (Else.Derives · a ·) kept := by
  rw [parseOtherwise, peek_bind_apply]
  split
  next hword =>
    refine .take_bind hc (by simp [hword]) ?_
    refine (parseBlock_salvaged hparts hc.advance).bind fun {kept _ block c'} hkept hblock => ?_
    refine .pure hkept.here fun after => ?_
    rw [List.append_nil]
    exact .block hword (hblock after)
  next => exact .pure hc fun _ => .absent

/-- What follows the first word of a conditional is read from what is kept for its parts. -/
theorem parseCond_salvaged (hword : c.peek.kind = .ifWord) :
    (parseCond expression contents c).Salvaged all c.advance
      fun kept s c' => KeptForOne (c.peek :: kept) s c' := by
  rw [parseCond, take_bind_apply]
  refine (parseBranch_salvaged hparts hc.advance).bind fun {_ _ branch c₁} h₁ hbranch => ?_
  rcases hbranch with ⟨kept₁, kept₂, rfl, htest, hblock⟩
  refine (Outcome.Salvaged.iterate (fun s _ hc => parseElseIf_salvaged hparts hc s) []
    h₁.here).bind fun {kept₃ _ reversed c₂} h₂ hbranches => ?_
  rcases hbranches with ⟨branches, rfl, hbranches⟩
  refine (parseOtherwise_salvaged hparts h₂.here).bind fun {kept₄ _ last c₃} h₃ hlast => ?_
  refine (parseLineEnd_salvaged h₃.here).bind fun {kept₅ _ _ c₄} h₄ hend => ?_
  refine .pure h₄.here ?_
  have helse := hbranches hlast (kept₅ ++ c₄.upcoming)
  simp only [KeptForOne, List.reverse_reverse, List.cons_append, List.append_assoc,
    List.append_nil] at helse ⊢
  exact .cond hword (htest _) (hblock _) helse hend

end Blocks

/-! ### Statements -/

/-- At a place, a reader of statements reads one from the tokens that are kept for it, or gives
one up.  Then the tokens taken pay for its problems, unless there is only one. -/
structure Attempts (all : List Token) (c : Cursor) (statement : Parser (Stmt Span)) : Prop where
  salvaged : (statement c).Salvaged all c KeptForOne
  paid : (statement c).value = none →
    (statement c).problems.length + (statement c).rest.upcoming.length ≤ c.upcoming.length ∨
      (statement c).problems.length = 1

section Statements

variable {room : Nat} {c : Cursor}

/-- After a look at the next token, a statement is read or given up. -/
theorem Attempts.look {f : Token → Parser (Stmt Span)}
    (h : ∀ t, c.peek = t → Attempts all c (f t)) : Attempts all c (peek >>= f) := by
  rcases h c.peek rfl with ⟨hsalvaged, hpaid⟩
  constructor <;> rw [peek_bind_apply]
  · exact hsalvaged
  · exact hpaid

/-- A statement without blocks is read from all its tokens, or has one problem. -/
theorem Attempts.of_terse {statement : Parser (Stmt Span)} (hterse : Terse statement)
    (hforward : Forward statement) (hc : c.In all)
    (hsound : ∀ {s c'}, Accepts statement c s c' → Derives c.upcoming s c'.upcoming) :
    Attempts all c statement := by
  refine ⟨.of_terse hterse hforward hc fun {s c'} h => ?_,
    fun hnone => .inr ((hterse c).length_problems hnone)⟩
  have hderives := hsound h
  rcases hderives.suffix with ⟨kept, hkept⟩
  exact ⟨kept, hkept.symm, by rw [KeptForOne, hkept]; exact hderives⟩

/-- A conditional that is given up has taken its first word. -/
theorem parseCond_attempts {expression : Parser (Expr Span)}
    {contents : Parser (List (Stmt Span))} (hparts : PartsSalvaged all expression contents)
    (hc : c.In all) (hword : c.peek.kind = .ifWord) :
    Attempts all c (parseCond expression contents) := by
  have hpeek : c.peek.kind ≠ .eof := by simp [hword]
  have hcond := parseCond_salvaged hparts hc hword
  refine ⟨hcond.after (.next hc hpeek) fun _ hvalue => hvalue, fun hnone => .inl ?_⟩
  have hle := hcond.length_problems_le hnone
  rw [hc.proper.upcoming_eq hpeek, List.length_cons]
  exact hle

/-- An expression is derived from the tokens that are kept for it. -/
theorem expression_salvaged (hc : c.In all) :
    (Expr.parse room Operator.loosest c).Salvaged all c
      fun kept e _ => Anywhere (Expr.Derives .equality · e ·) kept :=
  .of_terse (Expr.parse_terse room _) (forward_hereditary.expression room _) hc
    fun h => (Expr.parse_sound room h hc.proper).derives.closed.free

/-- A statement is read from the tokens that are kept for it, or given up. -/
theorem statementWithin_attempts (hc : c.In all)
    (hcontents : ∀ {c : Cursor}, c.In all → (contentsWithin room c).Salvaged all c KeptFor) :
    Attempts all c (statementWithin room) := by
  have hF := forward_hereditary
  have hterse := Expr.parse_terse room Operator.loosest
  have hforward := hF.expression room Operator.loosest
  have hsound := partsSound room (Nat.zero_add room)
  refine .look fun t hpeek => ?_
  split
  next hkind =>
    exact .of_terse parseComment_terse
      (hF.bind hF.take fun _ => hF.bind (hF.lineEnd _ _) fun _ => hF.pure _) hc
      fun h => (parseComment_sound h hc.proper (hpeek ▸ hkind) (Nat.zero_le room)).2.1
  next hkind =>
    exact .of_terse parseBlank_terse (hF.bind hF.take fun _ => hF.pure _) hc
      fun h => (parseBlank_sound h hc.proper (hpeek ▸ hkind) (Nat.zero_le room)).2.1
  next hkind =>
    exact .of_terse (parseAssign_terse hterse) (hF.assign hforward) hc
      fun h => (parseAssign_sound hsound h hc.proper (hpeek ▸ hkind)).2.1
  next hkind =>
    exact parseCond_attempts ⟨expression_salvaged, hcontents⟩ hc (hpeek ▸ hkind)
  next =>
    exact .of_terse (parseRun_terse hterse) (hF.run hforward) hc
      fun h => (parseRun_sound hsound h hc.proper).2.1

end Statements

/-! ### Lists of statements -/

section Lists

variable {inBlock : Bool} {statement : Parser (Stmt Span)} {c : Cursor}

/-- A statement that is read is put in front of those read before. -/
theorem parseNext_of_some {s : Stmt Span} (hends : endsList inBlock c.peek = false)
    (hs : (statement c).value = some s) (before : List (Stmt Span)) :
    parseNext inBlock statement before c =
      ⟨some (some (s :: before)), (statement c).problems, (statement c).rest⟩ := by
  have hattempt : (attempt statement c).value = some (some s) := by rw [← hs]; rfl
  rw [parseNext, peek_bind_apply, hends, if_neg (by simp), bind_of_some hattempt]
  simp [attempt]

/-- Skipping what is left of a mistake gives nothing and reports nothing. -/
theorem resume_bind_apply {β : Type} (f : Unit → Parser β) (c : Cursor) :
    (resume inBlock >>= f) c = f () (resume inBlock c).rest := by
  have hvalue : (resume inBlock c).value = some () := by rw [resume_apply]
  have hproblems : (resume inBlock c).problems = [] := by rw [resume_apply]
  rw [bind_of_some hvalue, hproblems]
  rfl

/-- A statement that cannot be read leaves its problems and the statements read before. -/
theorem parseNext_of_none (hends : endsList inBlock c.peek = false)
    (hnone : (statement c).value = none) (before : List (Stmt Span)) :
    parseNext inBlock statement before c =
      ⟨some (some before), (statement c).problems, (resume inBlock (statement c).rest).rest⟩ := by
  have hattempt : (attempt statement c).value = some none := by rw [← hnone]; rfl
  rw [parseNext, peek_bind_apply, hends, if_neg (by simp), bind_of_some hattempt]
  simp [resume_bind_apply, attempt]

/-- What is passed over after a mistake stands after the place where it was found. -/
theorem resume_suffix (inBlock : Bool) (hc : c.Proper) :
    (resume inBlock c).rest.upcoming <:+ c.upcoming := by
  rcases exists_resumes inBlock hc with ⟨dropped, hresumes⟩
  exact ⟨dropped, hresumes.upcoming.symm⟩

/-- The token where a mistake was found is passed over, unless it ends the list. -/
theorem length_upcoming_resume_lt (hc : c.Proper) (hends : endsList inBlock c.peek = false) :
    (resume inBlock c).rest.upcoming.length < c.upcoming.length := by
  rcases exists_resumes inBlock hc with ⟨dropped, hresumes⟩
  have hne : dropped ≠ [] := by
    by_cases hfound : isLandmark c.peek
    · simp [hresumes.landmark hfound]
    · have hboundary := hresumes.boundary hfound
      rw [c.upcoming_eq_peek_cons] at hboundary
      cases hboundary with
      | line => simp
      | before hstop => simp [hfound, hends] at hstop
      | skip => simp
  have hpos := List.length_pos_iff.mpr hne
  rw [hresumes.upcoming, List.length_append]
  omega

/-- Every turn of a loop over statements takes a token. -/
theorem parseNext_progress (hattempts : Attempts all c statement)
    (hends : endsList inBlock c.peek = false) (before : List (Stmt Span)) :
    (parseNext inBlock statement before c).rest.upcoming.length < c.upcoming.length := by
  have hsalvaged := hattempts.salvaged
  generalize ho : statement c = o at hsalvaged
  cases hsalvaged with
  | @value kept problems s c' h hvalue =>
      rw [parseNext_of_some hends (by rw [ho]), ho]
      have hlt := hvalue.length_lt
      have hle := h.length_le
      rw [List.length_append] at hlt
      show c'.upcoming.length < c.upcoming.length
      omega
  | @fault problems q found h _ =>
      rw [parseNext_of_none hends (by rw [ho]), ho]
      have hle := (resume_suffix inBlock h.here.proper).length_le
      rcases Nat.lt_or_eq_of_le h.suffix.length_le with hlt | heq
      · exact Nat.lt_of_le_of_lt hle hlt
      · -- Where nothing was taken, the mistake was found where the turn starts.
        have hsame := h.suffix.eq_of_length heq
        have hpeek : found.peek = c.peek := by
          rw [c.upcoming_eq_peek_cons] at hsame
          exact Cursor.peek_eq_of_upcoming hsame
        rw [← heq]
        exact length_upcoming_resume_lt h.here.proper (hpeek ▸ hends)

/-- Statements that are read in a list come after those read before, and where the list is read
to its end the next token ends it. -/
def KeptForList (inBlock : Bool) (before : List (Stmt Span)) (kept : List Token)
    (final : List (Stmt Span)) (c : Cursor) : Prop :=
  (∃ ss, final = ss.reverse ++ before ∧ KeptFor kept ss c) ∧ endsList inBlock c.peek = true

/-- A statement and those after it are derived from what is kept for them. -/
theorem KeptForOne.cons {kept kept' : List Token} {problems : List (Problem Span)} {s : Stmt Span}
    {ss : List (Stmt Span)} {c' : Cursor} (hc : c.Proper) (hs : KeptForOne kept s c)
    (hkept : Cursor.Salvages all c kept' problems c') (hss : KeptFor kept' ss c') :
    KeptFor (kept ++ kept') (s :: ss) c' := by
  rw [KeptFor, List.append_assoc]
  rcases hs.free_or_unended with hfree | ⟨_, _, mark, after, _, _, hrest, hmark⟩
  · exact .cons (hfree.anywhere _) hss
  · -- After the end mark nothing more is taken.
    have hpeek : c.peek.kind = .eof := by rw [Cursor.peek_eq_of_upcoming hrest]; exact hmark
    rcases hkept.taken with ⟨taken, htaken, hsublist, _⟩
    have hnone : taken = [] := by
      have hlength := congrArg List.length htaken
      rw [hc.upcoming_of_eof hpeek, List.length_append, Cursor.length_upcoming,
        List.length_singleton] at hlength
      exact List.length_eq_zero_iff.mp (by omega)
    rw [hnone] at htaken hsublist
    rw [List.sublist_nil.mp hsublist] at hss ⊢
    rw [KeptForOne, htaken] at hs
    exact .cons hs hss

variable (hc : c.In all)
include hc

/-- A turn of a loop over statements adds one statement, or pays for one that is given up. -/
theorem parseNext_salvaged (hattempts : Attempts all c statement) (before : List (Stmt Span)) :
    (parseNext inBlock statement before c).Salvaged all c
      (Outcome.Salvaged.Round all (KeptForList inBlock) before c) := by
  by_cases hends : endsList inBlock c.peek = true
  · rw [parseNext, peek_bind_apply, if_pos hends]
    exact .pure hc (.done ⟨⟨[], rfl, .nil⟩, hends⟩)
  · rw [Bool.not_eq_true] at hends
    have hprogress := parseNext_progress hattempts hends before
    have hpaid := hattempts.paid
    have hsalvaged := hattempts.salvaged
    generalize ho : statement c = o at hsalvaged
    cases hsalvaged with
    | @value kept problems s c' h hvalue =>
        rw [parseNext_of_some hends (by rw [ho]), ho] at hprogress ⊢
        refine .value h (.next (by simpa using hprogress) ?_)
        rintro kept' problems' final c'' hkept ⟨⟨ss, rfl, hss⟩, hlast⟩
        exact ⟨⟨s :: ss, by simp, hvalue.cons h.here.proper hkept hss⟩, hlast⟩
    | @fault problems q found h hplace =>
        rw [parseNext_of_none hends (by rw [ho]), ho] at hprogress ⊢
        rw [ho] at hpaid
        have hresumed := resume_suffix inBlock h.here.proper
        have hgiven : Cursor.Salvages all c [] (problems ++ [q]) (resume inBlock found).rest := by
          refine .given_up (h.here.later (forward_hereditary.resume inBlock found))
            (hresumed.trans h.suffix) ?_ (List.forall_mem_append.mpr ⟨h.places, by simpa⟩)
          have hle := hresumed.length_le
          rcases hpaid rfl with hmore | hone
          · exact Nat.le_trans (Nat.add_le_add_left hle _) hmore
          · rw [hone, Nat.add_comm]
            exact hprogress
        refine .value hgiven (.next (by simpa using hprogress) ?_)
        exact fun _ hlist => hlist

end Lists

section Rooms

variable {c : Cursor}

/-- A list of statements is derived from the tokens that are kept for it, and is read
to its end. -/
theorem parseList_salvaged {statement : Parser (Stmt Span)} (inBlock : Bool)
    (hattempts : ∀ {c : Cursor}, c.In all → Attempts all c statement) (hc : c.In all) :
    (parseList inBlock statement c).Salvaged all c
      fun kept ss c' => KeptFor kept ss c' ∧ endsList inBlock c'.peek = true := by
  refine (Outcome.Salvaged.iterate (fun before _ hc => parseNext_salvaged hc (hattempts hc) before)
    [] hc).bind fun {kept _ final c'} h hlist => ?_
  rcases hlist with ⟨⟨ss, rfl, hss⟩, hends⟩
  refine .pure h.here ⟨?_, hends⟩
  rw [List.append_nil, List.append_nil, List.reverse_reverse]
  exact hss

/-- The contents of a block are derived from the tokens that are kept for them. -/
theorem contentsWithin_salvaged (room : Nat) (hc : c.In all) :
    (contentsWithin room c).Salvaged all c KeptFor := by
  induction room generalizing c with
  | zero =>
      refine .of_terse refuseBlock_terse (contentsWithin_hereditary forward_hereditary 0) hc
        fun h => ?_
      rcases accepts_bind.mp h with ⟨_, _, _, hfail⟩
      exact absurd hfail not_accepts_fail
  | succ room ih =>
      rw [contentsWithin, parseAll_eq]
      exact (parseList_salvaged true (fun hc => statementWithin_attempts hc ih) hc).imp And.left

/-- A list of statements is read to its end, from the tokens that are kept for it. -/
theorem parseAll_salvaged (room : Nat) (inBlock : Bool) (hc : c.In all) :
    (parseAll room inBlock c).Salvaged all c
      fun kept ss c' => KeptFor kept ss c' ∧ endsList inBlock c'.peek = true := by
  rw [parseAll_eq]
  exact parseList_salvaged inBlock
    (fun hc => statementWithin_attempts hc (contentsWithin_salvaged room)) hc

end Rooms

/-- A list of statements is always read, with or without mistakes. -/
theorem parseAll_total (room : Nat) (inBlock : Bool) : Total (parseAll room inBlock) := by
  rw [parseAll_eq]
  exact (Total.iterate (parseNext_total inBlock _) []).bind fun _ => .pure _

end Stmt

/-! ### Scripts -/

namespace Script

/-- The place before a script is among its tokens. -/
theorem start_in (source : Source) :
    (Cursor.ofTokens (Token.ofSource source)).In (Token.ofSource source) :=
  ⟨Cursor.proper_ofTokens_ofSource source, by simp [Cursor.upcoming_ofTokens_ofSource]⟩

/-- Reading a script ends at the end mark. -/
theorem exists_outcome (source : Source) :
    ∃ ss problems kept c',
      Stmt.parseAll maxNesting false (Cursor.ofTokens (Token.ofSource source)) =
          ⟨some ss, problems, c'⟩ ∧
        Cursor.Salvages (Token.ofSource source) (Cursor.ofTokens (Token.ofSource source)) kept
          problems c' ∧
        Stmt.KeptFor kept ss c' ∧ c'.upcoming = [Token.endMark source.length] := by
  have hsalvaged := Stmt.parseAll_salvaged maxNesting false (start_in source)
  rcases Stmt.parseAll_total maxNesting false (Cursor.ofTokens (Token.ofSource source)) with
    ⟨ss, hvalue⟩
  generalize Stmt.parseAll maxNesting false _ = o at hsalvaged hvalue
  cases hsalvaged with
  | fault => simp at hvalue
  | @value kept problems ss c' h hkept =>
      refine ⟨ss, problems, kept, c', rfl, h, hkept.1, ?_⟩
      have heof : c'.peek.kind = .eof := by simpa [Stmt.endsList] using hkept.2
      have hend := h.here.proper.upcoming_of_eof heof
      rcases h.here.suffix with ⟨front, hfront⟩
      rw [hend, Token.ofSource] at hfront
      rw [hend]
      exact (List.append_inj' hfront rfl).2

/-- The tree of a script is derived from tokens of the script before the end mark.  Those are
fewer than its tokens by at least the number of its problems, each of which is reported at a
token. -/
theorem exists_kept (source : Source) :
    ∃ kept : List Token, kept.Sublist (Token.tokensFrom 0 source) ∧
      kept.length + (read source).2.length ≤ (Token.tokensFrom 0 source).length ∧
      Stmt.DerivesAll (kept ++ [Token.endMark source.length]) (read source).1.statements
        [Token.endMark source.length] ∧
      ∀ q ∈ (read source).2, q.At (Token.ofSource source) := by
  rcases exists_outcome source with ⟨ss, problems, kept, c', houtcome, h, hkept, hend⟩
  have hread : read source = (⟨ss⟩, problems) := by
    rw [read, ofTokens, houtcome]
    rfl
  rcases h.taken with ⟨taken, htaken, hsublist, hle⟩
  rw [Cursor.upcoming_ofTokens_ofSource, Token.ofSource, hend] at htaken
  rw [Stmt.KeptFor, hend] at hkept
  rw [hread, List.append_cancel_right htaken]
  exact ⟨kept, hsublist, hle, hkept, h.places⟩

end Script
end Shellward
