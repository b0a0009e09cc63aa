import Shellward.Grammar.Expr
import Shellward.Proofs.Acceptance
import Shellward.Proofs.Grammar.Basic

/-!
# Reading expressions

The reader of expressions climbs from operator to operator, while the grammar
goes down from level to level.  Both agree: what is read is derived, within the
room that was given, and what is derived is read if the room suffices and the
next token does not continue the expression.

Main results:

- Theorem `Expr.parse_sound`: an expression that is read is derived.
- Theorem `Expr.Derives.reads`: an expression that is derived is read.
-/

namespace Shellward
namespace Expr

open Shellward.Parser

/-! ### Where an expression ends -/

/-- The next token does not continue an expression whose operators are stronger
than `floor`. -/
def Stops (floor : Nat) : List Token → Prop
  | [] => False
  | t :: _ => t.kind ≠ .leftParen ∧ ∀ op, Operator.ofKind? t.kind = some op → op.strength ≤ floor

/-- What ends an expression ends one with fewer operators. -/
theorem Stops.mono {floor floor' : Nat} {rest : List Token} (h : Stops floor rest)
    (hle : floor ≤ floor') : Stops floor' rest := by
  cases rest with
  | nil => exact h
  | cons t ts => exact ⟨h.1, fun op hop => Nat.le_trans (h.2 op hop) hle⟩

/-- A token that is neither an operator nor an opening parenthesis ends every expression. -/
theorem stops_of_kind {t : Token} {ts : List Token} (floor : Nat) (hleft : t.kind ≠ .leftParen)
    (hnone : Operator.ofKind? t.kind = none) : Stops floor (t :: ts) :=
  ⟨hleft, fun op hop => by simp [hnone] at hop⟩

/-- Whether an expression ends shows in the next token. -/
theorem stops_upcoming {floor : Nat} {c : Cursor} :
    Stops floor c.upcoming ↔ c.peek.kind ≠ .leftParen ∧
      ∀ op, Operator.ofKind? c.peek.kind = some op → op.strength ≤ floor := by
  rw [c.upcoming_eq_peek_cons]
  exact Iff.rfl

/-- The loosest level whose operators are all stronger than `floor`. -/
def levelAbove : Nat → Level
  | 0 => .equality
  | 1 => .relational
  | 2 => .additive
  | 3 => .multiplicative
  | _ => .negation

/-- The loosest level above a floor is not far above it. -/
theorem rank_levelAbove_le : ∀ floor : Nat, (levelAbove floor).rank ≤ floor
  | 0 | 1 | 2 | 3 => by decide
  | n + 4 => by
      have hrank : (levelAbove (n + 4)).rank = 4 := rfl
      omega

/-- Above the strength of an operator is the level of its right operand. -/
theorem levelAbove_strength (op : Operator) : levelAbove op.strength = op.level.tighter := by
  cases op <;> rfl

/-- An operator above the floor is on a level above the floor. -/
theorem rank_levelAbove_le_level {floor : Nat} {op : Operator} (h : floor < op.strength) :
    (levelAbove floor).rank ≤ op.level.rank := by
  have := rank_levelAbove_le floor
  have := op.rank_level
  omega

/-! ### What is read is derived -/

/-- From one cursor to another an expression is read as the grammar has it, within
`room` and up to where the operators stronger than `floor` end. -/
structure ReadAs (room floor : Nat) (c : Cursor) (e : Expr Span) (c' : Cursor) : Prop where
  proper : c'.Proper
  derives : Derives (levelAbove floor) c.upcoming e c'.upcoming
  need_le : e.need ≤ room
  stops : Stops floor c'.upcoming

/-- Whatever `inner` accepts is read as the grammar has it. -/
def SoundWithin (room : Nat) (inner : Nat → Parser (Expr Span)) : Prop :=
  ∀ ⦃floor : Nat⦄ ⦃c c' : Cursor⦄ ⦃e : Expr Span⦄,
    Accepts (inner floor) c e c' → c.Proper → ReadAs room floor c e c'

/-- An expression that fits on one token is derived at the tightest level. -/
theorem derives_of_ofToken? {t : Token} {e : Expr Span} (h : ofToken? t = some e) :
    t.kind ≠ .eof ∧ e.need = 1 ∧ ∀ rest, Derives .call (t :: rest) e rest := by
  unfold ofToken? at h
  split at h
  all_goals simp only [Option.some.injEq, reduceCtorEq] at h
  all_goals
    rename_i hkind
    subst h
    refine ⟨by simp [hkind], rfl, fun rest => ?_⟩
  · exact .literal .string hkind
  · exact .literal .pattern hkind
  · exact .literal .atom hkind
  · exact .literal .number hkind
  · exact .name hkind

section Soundness

variable {room floor : Nat} {inner : Nat → Parser (Expr Span)} {c c' : Cursor} {e : Expr Span}

/-- A minus sign and its operand are read as the grammar has them. -/
theorem parseNegation_sound (hinner : SoundWithin room inner)
    (h : Accepts (parseNegation inner) c e c') (hc : c.Proper) (hkind : c.peek.kind = .minus) :
    c'.Proper ∧ Derives .negation c.upcoming e c'.upcoming ∧ e.need ≤ room + 1 := by
  unfold parseNegation at h
  rcases accepts_bind.mp h with ⟨sign, c₁, htake, h⟩
  rcases accepts_take.mp htake with ⟨rfl, rfl⟩
  rcases accepts_bind.mp h with ⟨operand, c₂, hoperand, h⟩
  rcases accepts_pure.mp h with ⟨rfl, rfl⟩
  have hread := hinner hoperand hc.advance
  rw [hc.upcoming_eq (by simp [hkind])]
  refine ⟨hread.proper, .negate hkind hread.derives, ?_⟩
  have := hread.need_le
  simp only [need]
  omega

/-- A group is read as the grammar has it. -/
theorem parseGroup_sound (hinner : SoundWithin room inner)
    (h : Accepts (parseGroup inner) c e c') (hc : c.Proper) (hkind : c.peek.kind = .leftParen) :
    c'.Proper ∧ Derives .call c.upcoming e c'.upcoming ∧ e.need ≤ room + 1 := by
  unfold parseGroup at h
  rcases accepts_bind.mp h with ⟨left, c₁, htake, h⟩
  rcases accepts_take.mp htake with ⟨rfl, rfl⟩
  rcases accepts_bind.mp h with ⟨body, c₂, hbody, h⟩
  rcases accepts_bind.mp h with ⟨right, c₃, hright, h⟩
  rcases accepts_require.mp hright with ⟨hclose, rfl, rfl⟩
  rcases accepts_pure.mp h with ⟨rfl, rfl⟩
  have hread := hinner hbody hc.advance
  have hderives := hread.derives
  rw [hread.proper.upcoming_eq (by simp [hclose])] at hderives
  rw [hc.upcoming_eq (by simp [hkind])]
  refine ⟨hread.proper.advance, .group hkind hderives hclose, ?_⟩
  have := hread.need_le
  simp only [need]
  omega

/-- An operand is read as the grammar has it. -/
theorem parseOperand_sound (hinner : SoundWithin room inner)
    (h : Accepts (parseOperand inner) c e c') (hc : c.Proper) :
    c'.Proper ∧ Derives .negation c.upcoming e c'.upcoming ∧ e.need ≤ room + 1 := by
  unfold parseOperand at h
  rcases accepts_bind.mp h with ⟨t, c₁, hpeek, h⟩
  rcases accepts_peek.mp hpeek with ⟨rfl, rfl⟩
  split at h
  · rename_i leaf hleaf
    rcases accepts_bind.mp h with ⟨_, c₂, htake, h⟩
    rcases accepts_take.mp htake with ⟨rfl, rfl⟩
    rcases accepts_pure.mp h with ⟨rfl, rfl⟩
    rcases derives_of_ofToken? hleaf with ⟨hkind, hneed, hderives⟩
    rw [hc.upcoming_eq hkind, hneed]
    exact ⟨hc.advance, .tighter (hderives _), by omega⟩
  · split at h
    · rename_i hkind
      exact parseNegation_sound hinner h hc hkind
    · rename_i hkind
      rcases parseGroup_sound hinner h hc hkind with ⟨hproper, hderives, hneed⟩
      exact ⟨hproper, .tighter hderives, hneed⟩
    · exact absurd h not_accepts_fail
    · exact absurd h not_accepts_fail

/-- The line ends ahead are skipped, all of them. -/
theorem skipLineEnds_sound {c : Cursor} (h : Accepts skipLineEnds c () c') (hc : c.Proper) :
    c'.Proper ∧ LineEnds c.upcoming c'.upcoming := by
  rcases accepts_skipWhile.mp h with rfl
  refine ⟨hc.skipWhile _, ?_⟩
  unfold Cursor.skipWhile Cursor.upcoming
  dsimp only
  induction c.ahead with
  | nil => exact .none
  | cons t ts ih =>
      by_cases hkind : t.kind = .newLine
      · simpa [hkind] using LineEnds.more hkind ih
      · simpa [hkind] using LineEnds.none

/-- One round of the loop over arguments: it stops before the parenthesis that
closes the call, and otherwise reads an argument and what separates it from the
next one. -/
theorem parseArgument_sound (hinner : SoundWithin room inner) {callee : String}
    {before : List (Expr Span)} {answer : Option (List (Expr Span))}
    (h : Accepts (parseArgument inner callee before) c answer c') (hc : c.Proper) :
    (answer = none ∧ c' = c ∧ c.peek.kind = .rightParen) ∨
      ∃ e middle, answer = some (e :: before) ∧ c'.Proper ∧ e.need ≤ room ∧
        Derives .equality c.upcoming e middle ∧
        ((c'.peek.kind = .rightParen ∧ LineEnds middle c'.upcoming) ∨
          ∃ comma after, comma.kind = .comma ∧ LineEnds middle (comma :: after) ∧
            LineEnds after c'.upcoming) := by
  unfold parseArgument at h
  rcases accepts_bind.mp h with ⟨t, c₁, hpeek, h⟩
  rcases accepts_peek.mp hpeek with ⟨rfl, rfl⟩
  split at h
  · rename_i hkind
    rcases accepts_pure.mp h with ⟨rfl, rfl⟩
    exact .inl ⟨rfl, rfl, hkind⟩
  · right
    rcases accepts_bind.mp h with ⟨e, c₂, he, h⟩
    have hread := hinner he hc
    rcases accepts_bind.mp h with ⟨_, c₃, hskip, h⟩
    rcases skipLineEnds_sound hskip hread.proper with ⟨hc₃, hends⟩
    rcases accepts_bind.mp h with ⟨separator, c₄, hpeek, h⟩
    rcases accepts_peek.mp hpeek with ⟨rfl, rfl⟩
    split at h
    · rename_i hkind
      rcases accepts_pure.mp h with ⟨rfl, rfl⟩
      exact ⟨e, _, rfl, hc₃, hread.need_le, hread.derives, .inl ⟨hkind, hends⟩⟩
    · rename_i hkind
      rcases accepts_bind.mp h with ⟨_, c₅, htake, h⟩
      rcases accepts_take.mp htake with ⟨rfl, rfl⟩
      rcases accepts_bind.mp h with ⟨_, c₆, hskip, h⟩
      rcases skipLineEnds_sound hskip hc₃.advance with ⟨hc₆, hafter⟩
      rcases accepts_pure.mp h with ⟨rfl, rfl⟩
      rw [hc₃.upcoming_eq (by simp [hkind])] at hends
      exact ⟨e, _, rfl, hc₆, hread.need_le, hread.derives, .inr ⟨_, _, hkind, hends, hafter⟩⟩
    · exact absurd h not_accepts_fail
    · exact absurd h not_accepts_fail

/-- The arguments up to the parenthesis that closes the call. -/
theorem parseArguments_sound (hinner : SoundWithin room inner) {callee : String}
    {before all : List (Expr Span)}
    (h : Accepts (iterate (parseArgument inner callee) before) c all c') (hc : c.Proper) :
    c'.Proper ∧ ∃ es, all = es.reverse ++ before ∧ needAll es ≤ room ∧
      DerivesArguments c.upcoming es c'.peek c'.advance.upcoming := by
  have round : ∀ {s s₁ : List (Expr Span)} {c c₁ : Cursor}, c.Proper →
      Accepts (parseArgument inner callee s) c (some s₁) c₁ →
        c₁.Proper ∧ c₁.upcoming.length < c.upcoming.length := by
    intro s s₁ c c₁ hc h
    rcases parseArgument_sound hinner h hc with ⟨hnone, _, _⟩ | ⟨e, middle, _, hc₁, _, he, hsep⟩
    · simp at hnone
    · refine ⟨hc₁, ?_⟩
      have hlt := he.length_lt
      have hle : c₁.upcoming.length ≤ middle.length := by
        rcases hsep with ⟨_, hends⟩ | ⟨comma, after, _, hends, hafter⟩
        · exact hends.length_le
        · have := hends.length_le
          have := hafter.length_le
          simp only [List.length_cons] at *
          omega
      omega
  have hrounds := Accepts.rounds (fun _ c => c.Proper) round h hc
  clear h
  induction hrounds with
  | done h =>
      rcases parseArgument_sound hinner h hc with ⟨_, rfl, hkind⟩ | ⟨_, _, hsome, _⟩
      · refine ⟨hc, [], rfl, Nat.zero_le _, ?_⟩
        rw [hc.upcoming_eq (by simp [hkind])]
        exact .none hkind
      · simp at hsome
  | @next s s₁ s' c c₁ c' h hrounds ih =>
      rcases parseArgument_sound hinner h hc with
        ⟨hnone, _, _⟩ | ⟨e, middle, hsome, hc₁, hneed, he, hsep⟩
      · simp at hnone
      · rcases ih hc₁ with ⟨hc', es, rfl, hneeds, hes⟩
        simp only [Option.some.injEq] at hsome
        refine ⟨hc', e :: es, by simp [hsome], ?_, ?_⟩
        · simp only [needAll]
          omega
        · rcases hsep with ⟨hkind, hends⟩ | ⟨comma, after, hcomma, hends, hafter⟩
          · rw [hc₁.upcoming_eq (by simp [hkind])] at hes hends
            rcases hes.of_rightParen hkind with ⟨rfl, hclose, hrest⟩
            rw [hclose, hrest]
            exact .last he hends hkind
          · exact .more he hends hcomma hafter hes

/-- A call is read as the grammar has it, once its callee is, and takes a token. -/
theorem parseCall_sound (hinner : SoundWithin room inner) {left : Expr Span} {input : List Token}
    {level : Level} (h : Accepts (parseCall inner left) c e c') (hc : c.Proper)
    (hkind : c.peek.kind = .leftParen) (hleft : Derives level input left c.upcoming) :
    c'.Proper ∧ Derives .call input e c'.upcoming ∧ e.need ≤ room + 1 ∧
      c'.upcoming.length < c.upcoming.length := by
  unfold parseCall at h
  split at h
  · rename_i text place
    rcases accepts_bind.mp h with ⟨_, c₁, htake, h⟩
    rcases accepts_take.mp htake with ⟨rfl, rfl⟩
    rcases accepts_bind.mp h with ⟨_, c₂, hskip, h⟩
    rcases skipLineEnds_sound hskip hc.advance with ⟨hc₂, hends⟩
    rcases accepts_bind.mp h with ⟨all, c₃, hall, h⟩
    rcases parseArguments_sound hinner hall hc₂ with ⟨hc₃, es, rfl, hneed, hes⟩
    rcases accepts_bind.mp h with ⟨close, c₄, hclose, h⟩
    rcases accepts_take.mp hclose with ⟨rfl, rfl⟩
    rcases accepts_pure.mp h with ⟨rfl, rfl⟩
    rcases hleft.of_name text place rfl with ⟨t, ht, rfl, rfl, rfl⟩
    rw [hc.upcoming_eq (by simp [hkind])]
    simp only [List.append_nil, List.reverse_reverse, need]
    refine ⟨hc₃.advance, .call ht hkind hends hes, by omega, ?_⟩
    have := hends.length_le
    have := hes.length_lt
    simp only [List.length_cons]
    omega
  · rcases accepts_bind.mp h with ⟨t, c₁, hpeek, h⟩
    exact absurd h not_accepts_fail

/-- An operation is read as the grammar has it, once its left operand is, and takes a token. -/
theorem parseBinary_sound (hinner : SoundWithin room inner) {op : Operator} {left : Expr Span}
    {input : List Token} (h : Accepts (parseBinary inner op left) c e c') (hc : c.Proper)
    (hkind : c.peek.kind = op.symbol) (hleft : Derives op.level input left c.upcoming)
    (hneed : left.need ≤ room + 1) :
    c'.Proper ∧ Derives op.level input e c'.upcoming ∧ e.need ≤ room + 1 ∧
      Stops op.strength c'.upcoming ∧ c'.upcoming.length < c.upcoming.length := by
  unfold parseBinary at h
  rcases accepts_bind.mp h with ⟨_, c₁, htake, h⟩
  rcases accepts_take.mp htake with ⟨rfl, rfl⟩
  rcases accepts_bind.mp h with ⟨right, c₂, hright, h⟩
  rcases accepts_pure.mp h with ⟨rfl, rfl⟩
  have hread := hinner hright hc.advance
  have hderives := hread.derives
  rw [levelAbove_strength] at hderives
  rw [hc.upcoming_eq (by rw [hkind]; cases op <;> simp [Operator.symbol])] at hleft ⊢
  refine ⟨hread.proper, .binary op hleft hkind hderives, ?_, hread.stops, ?_⟩
  · have := hread.need_le
    simp only [need]
    omega
  · have := hread.derives.length_lt
    simp only [List.length_cons]
    omega

/-- What holds between two rounds of the loop over operators: the expression so
far is derived from the tokens `input`, at a level that the next operator does
not exceed. -/
structure Partial (room floor : Nat) (input : List Token) (left : Expr Span) (c : Cursor) :
    Prop where
  proper : c.Proper
  need_le : left.need ≤ room + 1
  derives : ∃ level, Derives level input left c.upcoming ∧
    (levelAbove floor).rank ≤ level.rank ∧
    ∀ op, Operator.ofKind? c.peek.kind = some op → op.level.rank ≤ level.rank

/-- One round of the loop over operators. -/
theorem parseContinuation_sound (hinner : SoundWithin room inner) {left : Expr Span}
    {answer : Option (Expr Span)} {input : List Token}
    (h : Accepts (parseContinuation inner floor left) c answer c')
    (hleft : Partial room floor input left c) :
    (answer = none ∧ c' = c ∧ Stops floor c.upcoming) ∨
      ∃ e, answer = some e ∧ Partial room floor input e c' ∧
        c'.upcoming.length < c.upcoming.length := by
  rcases hleft with ⟨hc, hneed, level, hderives, hfloor, hnext⟩
  unfold parseContinuation at h
  rcases accepts_bind.mp h with ⟨t, c₁, hpeek, h⟩
  rcases accepts_peek.mp hpeek with ⟨rfl, rfl⟩
  split at h
  · rename_i hkind
    rcases accepts_map.mp h with ⟨e, hcall, rfl⟩
    rcases parseCall_sound hinner hcall hc hkind hderives with ⟨hc', hderives', hneed', hlt⟩
    refine .inr ⟨e, rfl, ⟨hc', hneed', .call, hderives', ?_, ?_⟩, hlt⟩
    · exact Level.rank_le_call _
    · exact fun op _ => Level.rank_le_call _
  · rename_i hkind
    split at h
    · rename_i op hop
      split at h
      · rename_i hstrength
        rcases accepts_map.mp h with ⟨e, hbinary, rfl⟩
        have hleft := hderives.loosen (hnext op hop)
        rcases parseBinary_sound hinner hbinary hc (Operator.symbol_of_ofKind? hop) hleft hneed with
          ⟨hc', hderives', hneed', hstops, hlt⟩
        refine .inr ⟨e, rfl, ⟨hc', hneed', op.level, hderives', ?_, ?_⟩, hlt⟩
        · exact rank_levelAbove_le_level hstrength
        · intro op' hop'
          have hle := (stops_upcoming.mp hstops).2 op' hop'
          have := op.rank_level
          have := op'.rank_level
          omega
      · rename_i hstrength
        rcases accepts_pure.mp h with ⟨rfl, rfl⟩
        refine .inl ⟨rfl, rfl, stops_upcoming.mpr ⟨hkind, ?_⟩⟩
        intro op' hop'
        rw [hop, Option.some.injEq] at hop'
        subst hop'
        omega
    · rename_i hnone
      rcases accepts_pure.mp h with ⟨rfl, rfl⟩
      refine .inl ⟨rfl, rfl, stops_upcoming.mpr ⟨hkind, ?_⟩⟩
      intro op hop
      rw [hnone] at hop
      exact absurd hop (by simp)

/-- The rounds of the loop over operators, from the first operand on. -/
theorem Partial.readAs (hinner : SoundWithin room inner) {left : Expr Span} {c₁ : Cursor}
    (hleft : Partial room floor c.upcoming left c₁)
    (h : Accepts (iterate (parseContinuation inner floor) left) c₁ e c') :
    ReadAs (room + 1) floor c e c' := by
  have round : ∀ {s s₁ : Expr Span} {d d₁ : Cursor}, Partial room floor c.upcoming s d →
      Accepts (parseContinuation inner floor s) d (some s₁) d₁ →
        Partial room floor c.upcoming s₁ d₁ ∧ d₁.upcoming.length < d.upcoming.length := by
    intro s s₁ d d₁ hs h
    rcases parseContinuation_sound hinner h hs with ⟨hnone, _⟩ | ⟨e, hsome, he, hlt⟩
    · simp at hnone
    · simp only [Option.some.injEq] at hsome
      subst hsome
      exact ⟨he, hlt⟩
  have hrounds := Accepts.rounds (Partial room floor c.upcoming) round h hleft
  clear h
  induction hrounds with
  | done h =>
      rcases parseContinuation_sound hinner h hleft with ⟨_, rfl, hstops⟩ | ⟨_, hsome, _⟩
      · rcases hleft.derives with ⟨level, hderives, hfloor, _⟩
        exact ⟨hleft.proper, hderives.loosen hfloor, hleft.need_le, hstops⟩
      · simp at hsome
  | next h _ ih => exact ih (round hleft h).1

/-- An operand and what continues it are read as the grammar has them. -/
theorem parseChain_sound (hinner : SoundWithin room inner)
    (h : Accepts (parseChain inner floor) c e c') (hc : c.Proper) :
    ReadAs (room + 1) floor c e c' := by
  unfold parseChain at h
  rcases accepts_bind.mp h with ⟨left, c₁, hoperand, hloop⟩
  rcases parseOperand_sound hinner hoperand hc with ⟨hc₁, hderives, hneed⟩
  have hleft : Partial room floor c.upcoming left c₁ := by
    refine ⟨hc₁, hneed, .negation, hderives, ?_, ?_⟩
    · unfold levelAbove
      split <;> decide
    · intro op _
      cases op <;> decide
  exact hleft.readAs hinner hloop

end Soundness

/-- An expression that is read is derived, within the room given. -/
theorem parse_sound (room : Nat) : SoundWithin room (parse room) := by
  induction room with
  | zero =>
      intro floor c c' e h _
      rcases accepts_bind.mp h with ⟨t, c₁, _, h⟩
      exact absurd h not_accepts_fail
  | succ room ih =>
      intro floor c c' e h hc
      exact parseChain_sound ih h hc

/-! ### What is derived is read -/

/-- All line ends before another token are read. -/
theorem reads_skipLineEnds {input rest : List Token} (h : LineEnds input rest)
    (hrest : ∀ t ts, rest = t :: ts → t.kind ≠ .newLine) :
    Reads skipLineEnds input () rest := by
  intro c hc hinput
  refine ⟨_, accepts_skipWhile.mpr rfl, hc.skipWhile _, ?_⟩
  have hskip : ∀ ahead : List Token, ∀ rest', LineEnds (ahead ++ [c.final]) rest' →
      (∀ t ts, rest' = t :: ts → t.kind ≠ .newLine) →
      ahead.dropWhile (·.kind == .newLine) ++ [c.final] = rest' := by
    intro ahead
    induction ahead with
    | nil =>
        intro rest' h hrest'
        cases h with
        | none => rfl
        | more hkind _ => simp [hc.final] at hkind
    | cons t ts ih =>
        intro rest' h hrest'
        by_cases hkind : t.kind = .newLine
        · cases h with
          | none => exact absurd hkind (hrest' t _ rfl)
          | more _ h => simpa [hkind] using ih rest' h hrest'
        · cases h with
          | none => simp [hkind]
          | more hkind' _ => exact absurd hkind' hkind
  exact hskip c.ahead rest (by rw [← Cursor.upcoming, hinput]; exact h) hrest

/-- After an argument comes a line end, or what separates it from the next one. -/
theorem stops_of_lineEnds {t : Token} {input rest : List Token} (floor : Nat)
    (h : LineEnds input (t :: rest)) (ht : t.kind = .rightParen ∨ t.kind = .comma) :
    Stops floor input := by
  cases h with
  | none =>
      rcases ht with ht | ht <;>
        exact stops_of_kind floor (by simp [ht]) (by simp [ht, Operator.ofKind?])
  | more hkind _ => exact stops_of_kind floor (by simp [hkind]) (by simp [hkind, Operator.ofKind?])

/-- A token that is an expression is read as an operand. -/
theorem reads_leaf {inner : Nat → Parser (Expr Span)} {t : Token} {rest : List Token}
    {e : Expr Span} (h : ofToken? t = some e) : Reads (parseOperand inner) (t :: rest) e rest := by
  unfold parseOperand
  refine Reads.peek.bind ?_
  simp only [h]
  exact (Reads.take (derives_of_ofToken? h).1).bind Reads.pure

/-- A minus sign and its operand are read as an operand. -/
theorem reads_negation {inner : Nat → Parser (Expr Span)} {sign : Token}
    {input rest : List Token} {e : Expr Span} (hsign : sign.kind = .minus)
    (h : Reads (inner Operator.negationStrength) input e rest) :
    Reads (parseOperand inner) (sign :: input) (.negate e (sign.span.merge e.place)) rest := by
  unfold parseOperand
  refine Reads.peek.bind ?_
  simp only [ofToken?, hsign, parseNegation]
  exact (Reads.take (by simp [hsign])).bind (h.bind Reads.pure)

/-- A group is read as an operand. -/
theorem reads_group {inner : Nat → Parser (Expr Span)} {left right : Token}
    {input rest : List Token} {e : Expr Span} (hleft : left.kind = .leftParen)
    (h : Reads (inner Operator.loosest) input e (right :: rest))
    (hright : right.kind = .rightParen) :
    Reads (parseOperand inner) (left :: input) (.group e (left.span.merge right.span)) rest := by
  unfold parseOperand
  refine Reads.peek.bind ?_
  simp only [ofToken?, hleft, parseGroup]
  refine (Reads.take (by simp [hleft])).bind (h.bind ?_)
  exact (Reads.require hright (by simp)).bind Reads.pure

/-- The loop over operators ends where the expression does. -/
theorem reads_stop {inner : Nat → Parser (Expr Span)} {floor : Nat} {e : Expr Span}
    {rest : List Token} (h : Stops floor rest) :
    Reads (iterate (parseContinuation inner floor) e) rest e rest := by
  cases rest with
  | nil => exact h.elim
  | cons t ts =>
      refine Reads.iterate_done ?_
      unfold parseContinuation
      refine Reads.peek.bind ?_
      rw [if_neg h.1]
      split
      · rename_i op hop
        rw [if_neg (Nat.not_lt.mpr (h.2 op hop))]
        exact Reads.pure
      · exact Reads.pure

/-- What the chain of operators reads within the room is read. -/
theorem reads_parse {room floor : Nat} {input rest : List Token} {e : Expr Span}
    (hneed : e.need ≤ room) (hstops : Stops floor rest)
    (h : ∀ n, e.need ≤ n + 1 →
      Reads (iterate (parseContinuation (parse n) floor) e) rest e rest →
        Reads (parseChain (parse n) floor) input e rest) :
    Reads (parse room floor) input e rest := by
  cases room with
  | zero =>
      have := e.one_le_need
      omega
  | succ n => exact h n hneed (reads_stop hstops)

/-- The parentheses after a name, with arguments that are read, continue the name to a call. -/
theorem reads_call {inner : Nat → Parser (Expr Span)} (floor : Nat) {callee left close : Token}
    {input first rest : List Token} {es : List (Expr Span)} (hleft : left.kind = .leftParen)
    (hends : LineEnds input first) (hfirst : ∀ t ts, first = t :: ts → t.kind ≠ .newLine)
    (hclose : close.kind = .rightParen)
    (h : Reads (iterate (parseArgument inner callee.lexeme) []) first es.reverse (close :: rest)) :
    Reads (parseContinuation inner floor (.name callee.lexeme callee.span)) (left :: input)
      (some (.call .plain callee.lexeme callee.span es (callee.span.merge close.span))) rest := by
  unfold parseContinuation
  refine Reads.peek.bind ?_
  rw [if_pos hleft]
  refine Reads.map ?_
  simp only [parseCall]
  refine (Reads.take (by simp [hleft])).bind ((reads_skipLineEnds hends hfirst).bind (h.bind ?_))
  refine (Reads.take (by simp [hclose])).bind ?_
  rw [List.reverse_reverse]
  exact Reads.pure

/-- An operator above the floor, with a right operand that is read, continues an expression. -/
theorem reads_binary {inner : Nat → Parser (Expr Span)} {floor : Nat} {op : Operator} {t : Token}
    {middle rest : List Token} (left : Expr Span) {right : Expr Span} (ht : t.kind = op.symbol)
    (hfloor : floor < op.strength) (h : Reads (inner op.strength) middle right rest) :
    Reads (parseContinuation inner floor left) (t :: middle)
      (some (.binary op left right (left.place.merge right.place))) rest := by
  have hleft : t.kind ≠ .leftParen := by
    rw [ht]
    cases op <;> simp [Operator.symbol]
  have heof : t.kind ≠ .eof := by
    rw [ht]
    cases op <;> simp [Operator.symbol]
  have hop : Operator.ofKind? t.kind = some op := by
    rw [ht]
    exact Operator.ofKind?_symbol op
  unfold parseContinuation
  refine Reads.peek.bind ?_
  rw [if_neg hleft]
  simp only [hop]
  rw [if_pos hfloor]
  refine Reads.map ?_
  unfold parseBinary
  exact (Reads.take heof).bind (h.bind Reads.pure)

/-- One round of the loop over arguments whose argument is followed by the
parenthesis that closes the call. -/
theorem reads_lastArgument {inner : Nat → Parser (Expr Span)} (callee : String)
    (before : List (Expr Span)) {close : Token} {input middle rest : List Token} {e : Expr Span}
    (hinput : ∃ t ts, input = t :: ts ∧ t.kind ≠ .rightParen)
    (h : Reads (inner Operator.loosest) input e middle) (hends : LineEnds middle (close :: rest))
    (hclose : close.kind = .rightParen) :
    Reads (parseArgument inner callee before) input (some (e :: before)) (close :: rest) := by
  rcases hinput with ⟨t, ts, rfl, ht⟩
  have hskip : Reads skipLineEnds middle () (close :: rest) := by
    refine reads_skipLineEnds hends ?_
    intro u us heq
    rw [← (List.cons.inj heq).1, hclose]
    simp
  unfold parseArgument
  refine Reads.peek.bind ?_
  rw [if_neg ht]
  refine h.bind (hskip.bind (Reads.peek.bind ?_))
  simp only [hclose]
  exact Reads.pure

/-- One round of the loop over arguments whose argument is followed by a comma. -/
theorem reads_moreArgument {inner : Nat → Parser (Expr Span)} (callee : String)
    (before : List (Expr Span)) {comma : Token} {input middle after next : List Token}
    {e : Expr Span} (hinput : ∃ t ts, input = t :: ts ∧ t.kind ≠ .rightParen)
    (h : Reads (inner Operator.loosest) input e middle) (hends : LineEnds middle (comma :: after))
    (hcomma : comma.kind = .comma) (hafter : LineEnds after next)
    (hnext : ∀ t ts, next = t :: ts → t.kind ≠ .newLine) :
    Reads (parseArgument inner callee before) input (some (e :: before)) next := by
  rcases hinput with ⟨t, ts, rfl, ht⟩
  have hskip : Reads skipLineEnds middle () (comma :: after) := by
    refine reads_skipLineEnds hends ?_
    intro u us heq
    rw [← (List.cons.inj heq).1, hcomma]
    simp
  unfold parseArgument
  refine Reads.peek.bind ?_
  rw [if_neg ht]
  refine h.bind (hskip.bind (Reads.peek.bind ?_))
  simp only [hcomma]
  refine (Reads.take (by simp [hcomma])).bind ?_
  exact (reads_skipLineEnds hafter hnext).bind Reads.pure

/-- Every operator of a level or of a tighter one is stronger than `floor`. -/
def Exceeds (floor : Nat) (level : Level) : Prop :=
  ∀ op : Operator, level.rank ≤ op.level.rank → floor < op.strength

/-- Levels from the rank of the floor on exceed it. -/
theorem exceeds_of_le {floor : Nat} {level : Level} (h : floor ≤ level.rank) :
    Exceeds floor level := by
  intro op hop
  have := op.rank_level
  omega

/-- No operator is as tight as a minus sign in front. -/
theorem exceeds_negation (floor : Nat) : Exceeds floor .negation := by
  intro op hop
  cases op <;> simp [Operator.level, Level.rank] at hop

/-- A tighter level exceeds what a level exceeds. -/
theorem Exceeds.tighter {floor : Nat} {level : Level} (h : Exceeds floor level) :
    Exceeds floor level.tighter := by
  intro op hop
  have := level.rank_le_tighter
  exact h op (by omega)

/-- No expression begins with a closing parenthesis. -/
theorem Derives.head_ne_rightParen {level : Level} {input rest : List Token} {e : Expr Span}
    (h : Derives level input e rest) : ∃ t ts, input = t :: ts ∧ t.kind ≠ .rightParen := by
  rcases h.exists_head with ⟨t, ts, heq, hbegins⟩
  refine ⟨t, ts, heq, ?_⟩
  intro hkind
  rw [hkind] at hbegins
  exact hbegins

/-- No arguments begin with a line end. -/
theorem DerivesArguments.head_ne_newLine {first rest : List Token} {es : List (Expr Span)}
    {close : Token} (h : DerivesArguments first es close rest) :
    ∀ t ts, first = t :: ts → t.kind ≠ .newLine := by
  intro t ts heq hkind
  rcases h.exists_head with ⟨u, us, heq', hclose | hbegins⟩
  · rw [heq] at heq'
    rw [← (List.cons.inj heq').1, hkind] at hclose
    simp at hclose
  · rw [heq] at heq'
    rw [← (List.cons.inj heq').1, hkind] at hbegins
    exact hbegins

/-- Before the closing parenthesis, no further argument is read. -/
theorem reads_noArgument {inner : Nat → Parser (Expr Span)} {callee : String} {close : Token}
    {rest : List Token} {before : List (Expr Span)} (hclose : close.kind = .rightParen) :
    Reads (iterate (parseArgument inner callee) before) (close :: rest) before
      (close :: rest) := by
  refine Reads.iterate_done ?_
  unfold parseArgument
  refine Reads.peek.bind ?_
  rw [if_pos hclose]
  exact Reads.pure

mutual

/-- Reading an expression that is derived comes down to going on after it. -/
theorem Derives.reads_chain : ∀ {level : Level} {input rest : List Token} {e : Expr Span},
    Derives level input e rest → ∀ {room floor : Nat} {final : Expr Span} {rest' : List Token},
      e.need ≤ room + 1 → Exceeds floor level → Stops (level.rank + 1) rest →
      Reads (iterate (parseContinuation (parse room) floor) e) rest final rest' →
        Reads (parseChain (parse room) floor) input final rest'
  | _, _, _, _, .literal kind hkind, _, _, _, _, _, _, _, hloop => by
      refine (reads_leaf ?_).bind hloop
      cases kind <;> simp [ofToken?, hkind, Literal.symbol]
  | _, _, _, _, .name hkind, _, _, _, _, _, _, _, hloop =>
      (reads_leaf (by simp [ofToken?, hkind])).bind hloop
  | _, _, _, _, @Derives.group _ right input rest inner hleft h hright, room, _, _, _, hneed, _, _,
      hloop => by
      simp only [need] at hneed
      have hstops : Stops Operator.loosest (right :: rest) :=
        stops_of_kind _ (by simp [hright]) (by rw [hright]; rfl)
      have hinner : Reads (parse room Operator.loosest) input inner (right :: rest) :=
        reads_parse (by omega) hstops fun n hn =>
          h.reads_chain hn (exceeds_of_le (Nat.zero_le _)) (hstops.mono (Nat.zero_le _))
      exact (reads_group hleft hinner hright).bind hloop
  | _, _, _, _, @Derives.call callee _ close _ first rest es hcallee hleft hends hes, room, floor,
      _, _, hneed, _, _, hloop => by
      simp only [need] at hneed
      have hall : Reads (iterate (parseArgument (parse room) callee.lexeme) []) first es.reverse
          (close :: rest) := by
        simpa using hes.reads callee.lexeme [] (by omega)
      have hname : ofToken? callee = some (.name callee.lexeme callee.span) := by
        simp [ofToken?, hcallee]
      have hcall := reads_call floor hleft hends hes.head_ne_newLine hes.kind_close hall
      refine (reads_leaf hname).bind (Reads.iterate_next hcall ?_ hloop)
      have := hends.length_le
      have := hes.length_lt
      simp only [List.length_cons]
      omega
  | _, _, _, _, @Derives.negate _ input rest inner hsign h, room, _, _, _, hneed, _, hstops,
      hloop => by
      simp only [need] at hneed
      have hinner : Reads (parse room Operator.negationStrength) input inner rest :=
        reads_parse (by omega) hstops fun n hn => h.reads_chain hn (exceeds_negation _) hstops
      exact (reads_negation hsign hinner).bind hloop
  | _, _, _, _, @Derives.binary t _ middle rest left right op hleft ht hright, room, floor, _, _,
      hneed, hexceeds, hstops, hloop => by
      simp only [need] at hneed
      have hrank := op.rank_level
      have hrank' := op.rank_tighter_level
      rw [hrank] at hstops
      have hmiddle : Stops (op.level.rank + 1) (t :: middle) := by
        refine ⟨by rw [ht]; cases op <;> simp [Operator.symbol], ?_⟩
        intro op' hop'
        rw [ht, Operator.ofKind?_symbol, Option.some.injEq] at hop'
        rw [← hop']
        exact Nat.le_of_eq hrank.symm
      have hinner : Reads (parse room op.strength) middle right rest :=
        reads_parse (by omega) hstops fun n hn =>
          hright.reads_chain hn (exceeds_of_le (by omega)) (hstops.mono (by omega))
      have hbinary := reads_binary left ht (hexceeds op (Nat.le_refl _)) hinner
      refine hleft.reads_chain (by omega) hexceeds hmiddle (Reads.iterate_next hbinary ?_ hloop)
      have := hright.length_lt
      simp only [List.length_cons]
      omega
  | _, _, _, _, @Derives.tighter level _ _ _ h, _, _, _, _, hneed, hexceeds, hstops, hloop => by
      have := level.rank_le_tighter
      exact h.reads_chain hneed hexceeds.tighter (hstops.mono (by omega)) hloop

/-- The arguments of a call are read up to the parenthesis that closes it. -/
theorem DerivesArguments.reads : ∀ {input rest : List Token} {es : List (Expr Span)}
    {close : Token}, DerivesArguments input es close rest →
      ∀ {room : Nat} (callee : String) (before : List (Expr Span)), needAll es ≤ room →
        Reads (iterate (parseArgument (parse room) callee) before) input (es.reverse ++ before)
          (close :: rest)
  | _, _, _, _, .none hclose, _, _, _, _ => reads_noArgument hclose
  | _, _, _, _, @DerivesArguments.last close input middle rest e h hends hclose, room, callee,
      before, hneed => by
      simp only [needAll] at hneed
      have hstops : Stops Operator.loosest middle := stops_of_lineEnds _ hends (.inl hclose)
      have he : Reads (parse room Operator.loosest) input e middle :=
        reads_parse (by omega) hstops fun n hn =>
          h.reads_chain hn (exceeds_of_le (Nat.zero_le _)) (hstops.mono (Nat.zero_le _))
      have hround := reads_lastArgument callee before h.head_ne_rightParen he hends hclose
      refine Reads.iterate_next hround ?_ (reads_noArgument hclose)
      have := h.length_lt
      have := hends.length_le
      omega
  | _, _, _, _, @DerivesArguments.more comma close input middle after next rest e es h hends hcomma
      hafter hmore, room, callee, before, hneed => by
      simp only [needAll] at hneed
      have hstops : Stops Operator.loosest middle := stops_of_lineEnds _ hends (.inr hcomma)
      have he : Reads (parse room Operator.loosest) input e middle :=
        reads_parse (by omega) hstops fun n hn =>
          h.reads_chain hn (exceeds_of_le (Nat.zero_le _)) (hstops.mono (Nat.zero_le _))
      have hround := reads_moreArgument callee before h.head_ne_rightParen he hends hcomma hafter
        hmore.head_ne_newLine
      have hlater : Reads (iterate (parseArgument (parse room) callee) (e :: before)) next
          (es.reverse ++ e :: before) (close :: rest) :=
        hmore.reads callee (e :: before) (by omega)
      rw [List.reverse_cons, List.append_assoc]
      refine Reads.iterate_next hround ?_ hlater
      have := h.length_lt
      have := hends.length_le
      have := hafter.length_le
      simp only [List.length_cons] at *
      omega

end

/-- An expression that is derived is read if there is room for it and nothing
continues it. -/
theorem Derives.reads {level : Level} {room floor : Nat} {input rest : List Token}
    {e : Expr Span} (h : Derives level input e rest) (hneed : e.need ≤ room)
    (hfloor : floor ≤ level.rank) (hstops : Stops floor rest) :
    Reads (parse room floor) input e rest :=
  reads_parse hneed hstops fun _ hn =>
    h.reads_chain hn (exceeds_of_le hfloor) (hstops.mono (by omega))

end Expr
end Shellward
