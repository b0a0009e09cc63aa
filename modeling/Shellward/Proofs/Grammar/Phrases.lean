import Shellward.Proofs.Grammar.Statements
import Shellward.Proofs.Locality

/-!
# Phrases and what follows them

The grammar looks at no token after an expression or a block, and at one token after a
statement: the end mark may take the place of the line end.  So a derivation whose last
line is ended stays one when other tokens follow.

Main results:

- Theorems `Expr.Derives.closed` and `Stmt.DerivesBlock.closed`: an expression and a block
  end with a token that is no line end, and are derived whatever follows them.
- Theorem `Stmt.DerivesAll.free_or_unended`: statements are derived whatever follows them,
  unless the last one is ended by the end mark.
- Theorem `Stmt.DerivesAll.passes`: statements that are derived whatever follows them are
  passed by the loop that reads statements.
-/

namespace Shellward

open Shellward.Parser

/-! ### Relations that do not look further -/

section Frames

variable {D E : List Token → List Token → Prop} {input middle rest : List Token}

/-- Whatever follows the tokens between `input` and `rest`, a relation holds across them. -/
def Free (D : List Token → List Token → Prop) (input rest : List Token) : Prop :=
  ∃ phrase, input = phrase ++ rest ∧ ∀ after, D (phrase ++ after) after

/-- Whatever follows the tokens between `input` and `rest`, a relation holds across them, and
the last of them is no line end. -/
def Closed (D : List Token → List Token → Prop) (input rest : List Token) : Prop :=
  ∃ phrase last, input = phrase ++ last :: rest ∧ last.kind ≠ .newLine ∧
    ∀ after, D (phrase ++ last :: after) after

/-- The end mark stands after a token that is no line end. -/
def Unended (input rest : List Token) : Prop :=
  ∃ phrase last mark after, input = phrase ++ last :: rest ∧ last.kind ≠ .newLine ∧
    rest = mark :: after ∧ mark.kind = .eof

/-- A relation that does not look further holds whatever follows. -/
theorem Closed.free (h : Closed D input rest) : Free D input rest := by
  rcases h with ⟨phrase, last, rfl, _, hD⟩
  refine ⟨phrase ++ [last], by simp, fun after => ?_⟩
  rw [List.append_assoc]
  exact hD after

/-- A relation does not look further if one that implies it does not. -/
theorem Closed.imp (h : Closed D input rest) (hE : ∀ {input rest}, D input rest → E input rest) :
    Closed E input rest := by
  rcases h with ⟨phrase, last, heq, hlast, hD⟩
  exact ⟨phrase, last, heq, hlast, fun after => hE (hD after)⟩

/-- One token that is no line end is closed. -/
theorem Closed.token {t : Token} (ht : t.kind ≠ .newLine) (hD : ∀ rest, D (t :: rest) rest) :
    Closed D (t :: rest) rest :=
  ⟨[], t, rfl, ht, hD⟩

/-- A closed phrase stays closed with a token in front. -/
theorem Closed.cons {t : Token} (h : Closed D input rest)
    (hE : ∀ {input rest}, D input rest → E (t :: input) rest) : Closed E (t :: input) rest := by
  rcases h with ⟨phrase, last, rfl, hlast, hD⟩
  exact ⟨t :: phrase, last, rfl, hlast, fun after => hE (hD after)⟩

/-- After a token that is no line end, a clause is ended by a line end or by the end mark. -/
theorem free_or_unended (phrase : List Token) {last : Token} (hlast : last.kind ≠ .newLine)
    (hend : Terminator middle rest)
    (hE : ∀ {middle rest}, Terminator middle rest → E (phrase ++ last :: middle) rest) :
    Free E (phrase ++ last :: middle) rest ∨ Unended (phrase ++ last :: middle) rest := by
  cases hend with
  | @line line rest hkind =>
      refine .inl ⟨phrase ++ [last, line], by simp, fun after => ?_⟩
      rw [List.append_assoc]
      exact hE (.line hkind)
  | last hkind => exact .inr ⟨phrase, last, _, _, rfl, hlast, rfl, hkind⟩

/-- Tokens that may be followed by anything change nothing about the end. -/
theorem Unended.after (h : Unended middle rest) (hfree : Free D input middle) :
    Unended input rest := by
  rcases hfree with ⟨phrase, rfl, _⟩
  rcases h with ⟨phrase', last, mark, after, rfl, hlast, hrest, hmark⟩
  exact ⟨phrase ++ phrase', last, mark, after, by rw [List.append_assoc], hlast, hrest, hmark⟩

end Frames

/-- Line ends are skipped whatever follows. -/
theorem LineEnds.free {input rest : List Token} (h : LineEnds input rest) :
    Free LineEnds input rest := by
  induction h with
  | none => exact ⟨[], rfl, fun _ => .none⟩
  | @more t input rest hkind _ ih =>
      rcases ih with ⟨phrase, rfl, hends⟩
      exact ⟨t :: phrase, rfl, fun after => .more hkind (hends after)⟩

/-! ### Expressions -/

namespace Expr

mutual

/-- An expression ends with a token that is no line end, and is derived whatever follows it. -/
theorem Derives.closed : ∀ {level : Level} {input rest : List Token} {e : Expr Span},
    Derives level input e rest → Closed (Derives level · e ·) input rest
  | _, _, _, _, .literal kind hkind =>
      .token (by rw [hkind]; cases kind <;> simp [Literal.symbol]) fun _ => .literal kind hkind
  | _, _, _, _, .name hkind => .token (by simp [hkind]) fun _ => .name hkind
  | _, _, _, _, @Derives.group left right input rest inner hleft hinner hright => by
      rcases hinner.closed.free with ⟨phrase, rfl, hphrase⟩
      exact ⟨left :: phrase, right, rfl, by simp [hright],
        fun after => .group hleft (hphrase (right :: after)) hright⟩
  | _, _, _, _, @Derives.call callee left close input first rest arguments hcallee hleft hends
      harguments => by
      rcases hends.free with ⟨lines, rfl, hlines⟩
      rcases harguments.closed with ⟨phrase, last, rfl, hlast, hphrase⟩
      refine ⟨callee :: left :: (lines ++ phrase), last, by simp, hlast, fun after => ?_⟩
      rw [List.cons_append, List.cons_append, List.append_assoc]
      exact .call hcallee hleft (hlines _) (hphrase after)
  | _, _, _, _, .negate hsign hinner => hinner.closed.cons (.negate hsign)
  | _, _, _, _, @Derives.binary t input middle rest left right op hleft hsymbol hright => by
      rcases hleft.closed.free with ⟨phrase, rfl, hphrase⟩
      rcases hright.closed with ⟨phrase', last, rfl, hlast, hphrase'⟩
      refine ⟨phrase ++ t :: phrase', last, by simp, hlast, fun after => ?_⟩
      rw [List.append_assoc]
      exact .binary op (hphrase _) hsymbol (hphrase' after)
  | _, _, _, _, .tighter h => h.closed.imp .tighter

/-- The arguments of a call are derived whatever follows the parenthesis that closes it. -/
theorem DerivesArguments.closed : ∀ {input rest : List Token} {es : List (Expr Span)}
    {close : Token}, DerivesArguments input es close rest →
      Closed (DerivesArguments · es close ·) input rest
  | _, _, _, _, .none hclose => .token (by simp [hclose]) fun _ => .none hclose
  | _, _, _, _, @DerivesArguments.last close input middle rest e h hends hclose => by
      rcases h.closed.free with ⟨phrase, rfl, hphrase⟩
      rcases hends.free with ⟨lines, rfl, hlines⟩
      refine ⟨phrase ++ lines, close, by simp, by simp [hclose], fun after => ?_⟩
      rw [List.append_assoc]
      exact .last (hphrase _) (hlines _) hclose
  | _, _, _, _, @DerivesArguments.more comma close input middle after next rest e es h hends hcomma
      hafter hmore => by
      rcases h.closed.free with ⟨phrase, rfl, hphrase⟩
      rcases hends.free with ⟨lines, rfl, hlines⟩
      rcases hafter.free with ⟨lines', rfl, hlines'⟩
      rcases hmore.closed with ⟨phrase', last, rfl, hlast, hphrase'⟩
      refine ⟨phrase ++ (lines ++ comma :: (lines' ++ phrase')), last, by simp, hlast,
        fun following => ?_⟩
      simp only [List.append_assoc, List.cons_append]
      exact .more (hphrase _) (hlines _) hcomma (hlines' _) (hphrase' following)

end

end Expr

/-! ### Statements -/

/-- No statement begins at an end mark. -/
theorem Stmt.DerivesAll.of_eof {mark : Token} {after rest : List Token} {ss : List (Stmt Span)}
    (h : Stmt.DerivesAll (mark :: after) ss rest) (hmark : mark.kind = .eof) :
    ss = [] ∧ rest = mark :: after := by
  cases h with
  | nil => exact ⟨rfl, rfl⟩
  | cons hs _ =>
      rcases hs.exists_head false with ⟨t, ts, heq, ht⟩
      rw [← (List.cons.inj heq).1] at ht
      simp [endsList, hmark] at ht

mutual

/-- A statement is derived whatever follows it, unless it is ended by the end mark. -/
theorem Stmt.Derives.free_or_unended : ∀ {input rest : List Token} {s : Stmt Span},
    Stmt.Derives input s rest → Free (Stmt.Derives · s ·) input rest ∨ Unended input rest
  | _, _, _, @Stmt.Derives.comment t input rest hkind hend =>
      free_or_unended [] (by simp [hkind]) hend (.comment hkind)
  | _, _, _, .blank hkind => .inl ⟨[_], rfl, fun _ => .blank hkind⟩
  | _, _, _, @Stmt.Derives.assign start target sign input middle rest value hstart htarget hsign
      hvalue hend => by
      rcases hvalue.closed with ⟨phrase, last, rfl, hlast, hphrase⟩
      exact free_or_unended (start :: target :: sign :: phrase) hlast hend
        (.assign hstart htarget hsign (hphrase _))
  | _, _, _, @Stmt.Derives.cond start input first second third rest test body place alternative
      hstart htest hbody halternative hend => by
      rcases htest.closed.free with ⟨phrase, rfl, hphrase⟩
      rcases hbody.closed with ⟨block, last, rfl, hlast, hblock⟩
      rcases halternative.closed with ⟨rfl, rfl⟩ | ⟨branches, last', rfl, hlast', hbranches⟩
      · have heq : start :: (phrase ++ (block ++ last :: second)) =
            (start :: (phrase ++ block)) ++ last :: second := by simp
        rw [heq]
        refine free_or_unended _ hlast hend fun {middle _} hend => ?_
        rw [List.cons_append, List.append_assoc]
        exact .cond hstart (hphrase _) (hblock _) .absent hend
      · have heq : start :: (phrase ++ (block ++ last :: (branches ++ last' :: third))) =
            (start :: (phrase ++ (block ++ last :: branches))) ++ last' :: third := by simp
        rw [heq]
        refine free_or_unended _ hlast' hend fun {middle _} hend => ?_
        simp only [List.cons_append, List.append_assoc]
        exact .cond hstart (hphrase _) (hblock _) (hbranches _) hend
  | _, _, _, .run hvalue hend => by
      rcases hvalue.closed with ⟨phrase, last, rfl, hlast, hphrase⟩
      exact free_or_unended _ hlast hend (.run (hphrase _))

/-- Statements are derived whatever follows them, unless the last one is ended by the end
mark. -/
theorem Stmt.DerivesAll.free_or_unended : ∀ {input rest : List Token} {ss : List (Stmt Span)},
    Stmt.DerivesAll input ss rest → Free (Stmt.DerivesAll · ss ·) input rest ∨ Unended input rest
  | _, _, _, .nil => .inl ⟨[], rfl, fun _ => .nil⟩
  | _, _, _, .cons h hmore => by
      rcases h.free_or_unended with hfree | hunended
      · rcases hmore.free_or_unended with hmore | hmore
        · rcases hfree with ⟨phrase, rfl, hphrase⟩
          rcases hmore with ⟨phrase', rfl, hphrase'⟩
          refine .inl ⟨phrase ++ phrase', by rw [List.append_assoc], fun after => ?_⟩
          rw [List.append_assoc]
          exact .cons (hphrase _) (hphrase' after)
        · exact .inr (hmore.after hfree)
      · -- After the end mark there is no statement.
        rcases hunended with ⟨phrase, last, mark, after, heq, hlast, rfl, hmark⟩
        rcases hmore.of_eof hmark with ⟨rfl, rfl⟩
        exact .inr ⟨phrase, last, mark, after, heq, hlast, rfl, hmark⟩

/-- A block ends with its brace, and is derived whatever follows it. -/
theorem Stmt.DerivesBlock.closed : ∀ {input rest : List Token} {body : List (Stmt Span)}
    {place : Span}, Stmt.DerivesBlock input body place rest →
      Closed (Stmt.DerivesBlock · body place ·) input rest
  | _, _, _, _, @Stmt.DerivesBlock.braces left line right input rest body hleft hline hbody
      hright => by
      rcases hbody.free_or_unended with ⟨phrase, rfl, hphrase⟩ | hunended
      · exact ⟨left :: line :: phrase, right, rfl, by simp [hright],
          fun after => .braces hleft hline (hphrase (right :: after)) hright⟩
      · rcases hunended with ⟨_, _, mark, _, _, _, heq, hmark⟩
        rw [← (List.cons.inj heq).1, hright] at hmark
        simp at hmark

/-- The alternatives of a conditional are none, or end with a brace and are derived whatever
follows them. -/
theorem Else.Derives.closed : ∀ {input rest : List Token} {a : Else Span},
    Else.Derives input a rest → a = .absent ∧ input = rest ∨ Closed (Else.Derives · a ·) input rest
  | _, _, _, .absent => .inl ⟨rfl, rfl⟩
  | _, _, _, .block hword hblock => .inr (hblock.closed.cons (.block hword))
  | _, _, _, @Else.Derives.elseIf word start input first second rest test body place a hword
      hstart htest hblock hmore => by
      rcases htest.closed.free with ⟨phrase, rfl, hphrase⟩
      rcases hblock.closed with ⟨block, last, rfl, hlast, hbody⟩
      rcases hmore.closed with ⟨rfl, rfl⟩ | ⟨branches, last', rfl, hlast', hbranches⟩
      · refine .inr ⟨word :: start :: (phrase ++ block), last, by simp, hlast, fun after => ?_⟩
        simp only [List.cons_append, List.append_assoc]
        exact .elseIf hword hstart (hphrase _) (hbody _) .absent
      · refine .inr ⟨word :: start :: (phrase ++ (block ++ last :: branches)), last', by simp,
          hlast', fun after => ?_⟩
        simp only [List.cons_append, List.append_assoc]
        exact .elseIf hword hstart (hphrase _) (hbody _) (hbranches _)

end

/-! ### Reading statements that are derived -/

namespace Stmt

/-- The loop that reads statements goes on after those that are derived. -/
theorem DerivesAll.iterate_eq {limit blocks room : Nat} (inBlock : Bool)
    (hlimit : blocks + room = limit) : ∀ {input rest : List Token} {ss : List (Stmt Span)},
    DerivesAll input ss rest → AllWithin limit blocks ss → ∀ before (c : Cursor), c.Proper →
      c.upcoming = input → ∃ c' : Cursor, c'.Proper ∧ c'.upcoming = rest ∧
        iterate (parseNext inBlock (statementWithin room)) before c =
          iterate (parseNext inBlock (statementWithin room)) (ss.reverse ++ before) c'
  | _, _, _, .nil, _, _, c, hc, hinput => ⟨c, hc, hinput, rfl⟩
  | _, _, _, @DerivesAll.cons input middle rest s ss h hmore, hwithin, before, c, hc, hinput => by
      rcases h.exists_head inBlock with ⟨t, ts, heq, ht⟩
      have hround : Reads (parseNext inBlock (statementWithin room) before) input
          (some (s :: before)) middle := by
        have hs := h.reads hlimit hwithin.1
        rw [heq] at hs ⊢
        exact reads_next before ht hs
      rcases hround c hc hinput with ⟨c₁, h₁, hc₁, hmiddle⟩
      rcases hmore.iterate_eq inBlock hlimit hwithin.2 (s :: before) c₁ hc₁ hmiddle with
        ⟨c', hc', hrest, hiterate⟩
      refine ⟨c', hc', hrest, ?_⟩
      have hahead : c₁.ahead.length < c.ahead.length := by
        have hlength := h.length_lt
        rw [← hinput, ← hmiddle, Cursor.length_upcoming, Cursor.length_upcoming] at hlength
        omega
      rw [Parser.iterate_eq (by rw [h₁]) (by rw [h₁]; exact hahead), h₁]
      simp only [List.nil_append, hiterate, List.reverse_cons, List.append_assoc,
        List.singleton_append]

/-- Statements that are derived whatever follows them are passed without a report. -/
theorem DerivesAll.passes {limit blocks room : Nat} (inBlock : Bool) {ts : List Token}
    {ss : List (Stmt Span)} (h : ∀ rest, DerivesAll (ts ++ rest) ss rest)
    (hlimit : blocks + room = limit) (hwithin : AllWithin limit blocks ss)
    (before : List (Stmt Span)) :
    Passes (parseNext inBlock (statementWithin room)) before ts (ss.reverse ++ before) [] := by
  intro c rest hc _ hinput
  rcases (h rest).iterate_eq inBlock hlimit hwithin before c hc hinput with
    ⟨c', hc', hrest, hiterate⟩
  exact ⟨c', hc', hrest, hiterate⟩

/-- Statements whose last line is ended are derived whatever follows them. -/
theorem DerivesAll.of_wholeLines {ts : List Token} {mark : Token} {ss : List (Stmt Span)}
    (h : DerivesAll (ts ++ [mark]) ss [mark]) (hts : ∀ t ∈ ts.getLast?, t.kind = .newLine)
    (rest : List Token) : DerivesAll (ts ++ rest) ss rest := by
  rcases h.free_or_unended with ⟨phrase, heq, hphrase⟩ | ⟨phrase, last, _, _, heq, hlast, _⟩
  · rw [List.append_cancel_right heq]
    exact hphrase rest
  · have hts' : ts = phrase ++ [last] := by
      rw [← List.append_cancel_right_eq ts [mark], heq]
      simp
    exact absurd (hts last (by simp [hts'])) hlast

end Stmt
end Shellward
