import Shellward.Proofs.Grammar.Phrases
import Shellward.Proofs.Script.Parts
import Shellward.Proofs.Token.Cutting

/-!
# The tokens of each part of a script

In a derivation, every statement and every expression has neighbouring tokens of its own.
They derive it wherever they stand, so also alone before an end mark, and its place goes
from where the first of them starts to where the last one stops.

Main results:

- Theorem `Expr.Derives.covers`: the tokens of an expression cover its place.
- Theorem `Stmt.Derives.exists_phrase`: so do those of a statement without its line end, and
  before an end mark they derive it.
- Theorem `Stmt.DerivesAll.nodes`: every part of derived statements is derived from some of
  their tokens.
-/

namespace Shellward

/-! ### Places that tokens cover -/

namespace Token

/-- Tokens stand one after the other. -/
structure Ordered (ts : List Token) : Prop where
  /-- No token starts before an earlier one stops. -/
  apart : ts.Pairwise fun t u => t.span.stop ≤ u.span.start
  /-- No token stops before it starts. -/
  proper : ∀ t ∈ ts, t.span.start ≤ t.span.stop

/-- The last of some tokens in order are in order. -/
theorem Ordered.suffix {ts us : List Token} (h : Ordered us) (hsuffix : ts <:+ us) : Ordered ts :=
  ⟨h.apart.sublist hsuffix.sublist, fun t ht => h.proper t (hsuffix.subset ht)⟩

theorem Ordered.tail {t : Token} {ts : List Token} (h : Ordered (t :: ts)) : Ordered ts :=
  h.suffix (List.suffix_cons t ts)

/-- The tokens of a script stand one after the other. -/
theorem ordered_ofSource (source : Source) : Ordered (ofSource source) := by
  have htiling := tiling_tokensFrom 0 source
  rw [Nat.zero_add] at htiling
  refine ⟨htiling.pairwise, ?_⟩
  rcases htiling.exists_last with ⟨front, hfront, htokens⟩
  intro t ht
  rw [ofSource, hfront, List.mem_append, List.mem_singleton] at ht
  rcases ht with ht | rfl
  · exact Nat.le_of_lt (htokens t ht).2
  · exact Nat.le_refl _

/-- Tokens end where the last of them does. -/
theorem endOf_append (offset : Nat) (ts us : List Token) :
    endOf offset (ts ++ us) = endOf (endOf offset ts) us := by
  induction ts generalizing offset with
  | nil => rfl
  | cons t ts ih => exact ih t.span.stop

/-- Tokens end where the first of them stops, or later. -/
theorem Ordered.stop_le_endOf {t : Token} {ts rest : List Token} (h : Ordered (t :: (ts ++ rest))) :
    t.span.stop ≤ endOf t.span.stop ts := by
  induction ts generalizing t with
  | nil => exact Nat.le_refl _
  | cons u ts ih =>
      have hapart := (List.pairwise_cons.mp h.apart).1 u List.mem_cons_self
      have hproper := h.tail.proper u List.mem_cons_self
      have hrest := ih h.tail
      rw [endOf]
      omega

/-- Tokens end before those after them start. -/
theorem Ordered.endOf_le {t : Token} {ts rest : List Token} (h : Ordered (t :: (ts ++ rest))) :
    ∀ u ∈ rest, endOf t.span.stop ts ≤ u.span.start := by
  induction ts generalizing t with
  | nil => exact (List.pairwise_cons.mp h.apart).1
  | cons v ts ih => exact ih h.tail

end Token

open Token (Ordered endOf)

/-- The tokens from `input` up to `rest` cover a place: it goes from where the first of them
starts to where the last one stops. -/
def Covers (place : Span) (input rest : List Token) : Prop :=
  ∃ t ts, input = t :: (ts ++ rest) ∧ place = ⟨t.span.start, endOf t.span.stop ts⟩

/-- A token covers its own place. -/
theorem Covers.token (t : Token) (rest : List Token) : Covers t.span (t :: rest) rest :=
  ⟨t, [], rfl, rfl⟩

/-- The tokens from the first of some to the last of later ones cover the place that
reaches from the one place to the other. -/
theorem Covers.merge {p q : Span} {input middle later rest : List Token}
    (hp : Covers p input middle) (hlater : later <:+ middle) (hq : Covers q later rest)
    (hordered : Ordered input) : Covers (p.merge q) input rest := by
  rcases hp with ⟨t, ts, rfl, rfl⟩
  rcases hlater with ⟨between, rfl⟩
  rcases hq with ⟨u, us, rfl, rfl⟩
  have hu := hordered.endOf_le u (List.mem_append_right between List.mem_cons_self)
  have hback : Ordered (u :: (us ++ rest)) :=
    hordered.suffix (((List.suffix_append between _).trans (List.suffix_append ts _)).trans
      (List.suffix_cons t _))
  have ht := hordered.proper t List.mem_cons_self
  have hfirst := hordered.stop_le_endOf
  have huproper := hback.proper u List.mem_cons_self
  have hlast := hback.stop_le_endOf
  refine ⟨t, ts ++ (between ++ u :: us), by simp, ?_⟩
  have hstart : min t.span.start u.span.start = t.span.start := Nat.min_eq_left (by omega)
  have hstop : max (endOf t.span.stop ts) (endOf u.span.stop us) = endOf u.span.stop us :=
    Nat.max_eq_right (by omega)
  rw [Token.endOf_append, Token.endOf_append, endOf]
  simp only [Span.merge, hstart, hstop]

/-! ### Expressions and their tokens -/

namespace Expr

/-- The tokens of an expression cover its place. -/
theorem Derives.covers : ∀ {level : Level} {input rest : List Token} {e : Expr Span},
    Derives level input e rest → Ordered input → Covers e.place input rest
  | _, _, _, _, .literal _ _, _ | _, _, _, _, .name _, _ => .token _ _
  | _, _, _, _, .group _ hinner _, hordered =>
      (Covers.token _ _).merge hinner.suffix (.token _ _) hordered
  | _, _, _, _, .call _ _ hends harguments, hordered =>
      (Covers.token _ _).merge
        ((harguments.close_suffix.trans hends.suffix).trans (List.suffix_cons _ _))
        (.token _ _) hordered
  | _, _, _, _, .negate _ hinner, hordered =>
      (Covers.token _ _).merge List.suffix_rfl (hinner.covers hordered.tail) hordered
  | _, _, _, _, .binary _ hleft _ hright, hordered =>
      (hleft.covers hordered).merge (List.suffix_cons _ _)
        (hright.covers (hordered.suffix ((List.suffix_cons _ _).trans hleft.suffix))) hordered
  | _, _, _, _, .tighter h, hordered => h.covers hordered

end Expr

/-! ### Statements and their tokens -/

/-- The braces of a block cover its place. -/
theorem Stmt.DerivesBlock.covers {input rest : List Token} {body : List (Stmt Span)} {place : Span}
    (h : Stmt.DerivesBlock input body place rest) (hordered : Ordered input) :
    Covers place input rest := by
  cases h with
  | braces _ _ hbody _ =>
      exact (Covers.token _ _).merge (hbody.suffix.trans (List.suffix_cons _ _)) (.token _ _)
        hordered

/-- The last block of a conditional stands where its tokens end. -/
theorem Else.Derives.covers : ∀ {second third : List Token} {a : Else Span},
    Else.Derives second a third → ∀ {first : List Token} {place : Span}, Ordered first →
      second <:+ first → Covers place first second →
        ∃ block, block <:+ first ∧ Covers (a.lastPlace place) block third
  | _, _, _, .absent, first, _, _, _, hplace => ⟨first, List.suffix_rfl, hplace⟩
  | _, _, _, .block _ hblock, _, _, hordered, hsecond, _ =>
      have hinput := (List.suffix_cons _ _).trans hsecond
      ⟨_, hinput, hblock.covers (hordered.suffix hinput)⟩
  | _, _, _, .elseIf _ _ htest hblock hmore, _, _, hordered, hsecond, _ => by
      have hfirst := ((htest.suffix.trans (List.suffix_cons _ _)).trans
        (List.suffix_cons _ _)).trans hsecond
      have hordered' := hordered.suffix hfirst
      rcases hmore.covers hordered' hblock.suffix (hblock.covers hordered') with
        ⟨block, hsuffix, hcovers⟩
      exact ⟨block, hsuffix.trans hfirst, hcovers⟩

/-- Some tokens are a statement by themselves: they derive it before an end mark, and they
cover its place. -/
structure Stmt.IsPhrase (t : Token) (ts : List Token) (s : Stmt Span) : Prop where
  /-- The place goes from the first token to the last one. -/
  place : s.place = ⟨t.span.start, endOf t.span.stop ts⟩
  /-- Nothing else is needed to end the statement but the end of the tokens. -/
  derives : ∀ {mark : Token}, mark.kind = .eof → Stmt.Derives (t :: (ts ++ [mark])) s [mark]

/-- What is a statement before whatever ends it is one by itself. -/
theorem Stmt.exists_phrase {s : Stmt Span} {input next : List Token}
    (hcovers : Covers s.place input next)
    (hfree : Free (fun input next => ∀ rest, Terminator next rest → Stmt.Derives input s rest)
      input next) : ∃ t ts, input = t :: (ts ++ next) ∧ Stmt.IsPhrase t ts s := by
  rcases hcovers with ⟨t, ts, rfl, hplace⟩
  rcases hfree with ⟨phrase, hphrase, hderives⟩
  rw [← List.cons_append, List.append_left_inj] at hphrase
  refine ⟨t, ts, rfl, hplace, fun {mark} hmark => ?_⟩
  rw [← List.cons_append, hphrase]
  exact hderives [mark] [mark] (.last hmark)

/-- The tokens of an expression are a statement that runs it. -/
theorem Expr.Derives.exists_phrase {level : Level} {input rest : List Token} {e : Expr Span}
    (h : Expr.Derives level input e rest) (hordered : Ordered input) :
    ∃ t ts, input = t :: (ts ++ rest) ∧ Stmt.IsPhrase t ts (.run e e.place) := by
  refine Stmt.exists_phrase (h.covers hordered) ?_
  rcases h.closed.free with ⟨phrase, rfl, hphrase⟩
  exact ⟨phrase, rfl, fun after rest hend => .run ((hphrase after).loosen (Nat.zero_le _)) hend⟩

/-- What follows the body of a conditional is derived whatever follows it. -/
theorem Else.Derives.free {input rest : List Token} {a : Else Span}
    (h : Else.Derives input a rest) : Free (Else.Derives · a ·) input rest := by
  rcases h.closed with ⟨rfl, rfl⟩ | hclosed
  · exact ⟨[], rfl, fun _ => .absent⟩
  · exact hclosed.free

/-- The tokens of a statement up to its line end are the statement by themselves. -/
theorem Stmt.Derives.exists_phrase {input rest : List Token} {s : Stmt Span}
    (h : Stmt.Derives input s rest) (hordered : Ordered input) :
    ∃ t ts next, input = t :: (ts ++ next) ∧ rest <:+ next ∧ Stmt.IsPhrase t ts s := by
  have hsplit : ∀ next, rest <:+ next →
      (∃ t ts, input = t :: (ts ++ next) ∧ Stmt.IsPhrase t ts s) →
        ∃ t ts next, input = t :: (ts ++ next) ∧ rest <:+ next ∧ Stmt.IsPhrase t ts s := by
    rintro next hrest ⟨t, ts, hinput, hphrase⟩
    exact ⟨t, ts, next, hinput, hrest, hphrase⟩
  cases h with
  | @comment t input _ hkind hend =>
      refine hsplit input hend.suffix (Stmt.exists_phrase (.token t input) ?_)
      exact ⟨[t], rfl, fun _ _ hend => .comment hkind hend⟩
  | @blank t _ hkind =>
      -- A blank line is its line end.
      exact ⟨t, [], rest, rfl, List.suffix_rfl, rfl, fun _ => .blank hkind⟩
  | @assign start target sign input middle _ value hstart htarget hsign hvalue hend =>
      have hvalueordered : Ordered input := hordered.tail.tail.tail
      have hcovers := (Covers.token start (target :: sign :: input)).merge
        ((List.suffix_cons _ _).trans (List.suffix_cons _ _)) (hvalue.covers hvalueordered) hordered
      refine hsplit middle hend.suffix (Stmt.exists_phrase hcovers ?_)
      rcases hvalue.closed.free with ⟨phrase, rfl, hphrase⟩
      exact ⟨start :: target :: sign :: phrase, rfl, fun after _ hend =>
        .assign hstart htarget hsign (hphrase after) hend⟩
  | @cond start input first second third _ test body place alternative hstart htest hbody
      halternative hend =>
      have hfirst : Ordered first := hordered.tail.suffix htest.suffix
      rcases halternative.covers hfirst hbody.suffix (hbody.covers hfirst) with
        ⟨block, hblock, hlast⟩
      have hcovers := (Covers.token start input).merge (hblock.trans htest.suffix) hlast hordered
      refine hsplit third hend.suffix (Stmt.exists_phrase hcovers ?_)
      rcases htest.closed.free with ⟨phrase, rfl, hphrase⟩
      rcases hbody.closed.free with ⟨braces, rfl, hbraces⟩
      rcases halternative.free with ⟨branches, rfl, hbranches⟩
      refine ⟨start :: (phrase ++ (braces ++ branches)), by simp, fun after _ hend => ?_⟩
      simp only [List.cons_append, List.append_assoc]
      exact .cond hstart (hphrase _) (hbraces _) (hbranches after) hend
  | @run _ middle _ value hvalue hend =>
      exact hsplit middle hend.suffix (hvalue.exists_phrase hordered)

/-! ### Limits of nesting -/

mutual

/-- A statement that keeps to a limit inside some blocks keeps to it inside fewer. -/
theorem Stmt.Within.mono {limit blocks fewer : Nat} (hle : fewer ≤ blocks) :
    ∀ {s : Stmt Span}, s.Within limit blocks → s.Within limit fewer
  | .comment .., h | .blank _, h => Nat.le_trans hle h
  | .assign .., h | .run .., h => by
      rw [Stmt.Within] at h ⊢
      omega
  | .cond test body _ alternative _, h => by
      rw [Stmt.Within] at h ⊢
      exact ⟨by omega, by omega, Stmt.AllWithin.mono (by omega) h.2.2.1, h.2.2.2.mono hle⟩

/-- Inside fewer blocks, statements keep to the limit all the more. -/
theorem Stmt.AllWithin.mono {limit blocks fewer : Nat} (hle : fewer ≤ blocks) :
    ∀ {ss : List (Stmt Span)}, Stmt.AllWithin limit blocks ss → Stmt.AllWithin limit fewer ss
  | [], _ => trivial
  | _ :: _, h => ⟨h.1.mono hle, Stmt.AllWithin.mono hle h.2⟩

/-- Inside fewer blocks, what follows the body of a conditional keeps to the limit all
the more. -/
theorem Else.Within.mono {limit blocks fewer : Nat} (hle : fewer ≤ blocks) :
    ∀ {a : Else Span}, a.Within limit blocks → a.Within limit fewer
  | .absent, _ => trivial
  | .block body _, h => by
      rw [Else.Within] at h ⊢
      exact ⟨by omega, Stmt.AllWithin.mono (by omega) h.2⟩
  | .elseIf test body _ rest, h => by
      rw [Else.Within] at h ⊢
      exact ⟨by omega, by omega, Stmt.AllWithin.mono (by omega) h.2.2.1, h.2.2.2.mono hle⟩

end

/-! ### The parts of a derivation -/

/-- An expression within a limit is derived from some of the tokens between `input` and
`rest`. -/
def Expr.SpeltIn (limit : Nat) (input rest : List Token) (e : Expr Span) : Prop :=
  ∃ level first next, e.Derives level first next ∧ e.need ≤ limit ∧ first <:+ input ∧ rest <:+ next

/-- A statement within a limit is derived from some of the tokens between `input` and `rest`. -/
def Stmt.SpeltIn (limit : Nat) (input rest : List Token) (s : Stmt Span) : Prop :=
  ∃ first next, s.Derives first next ∧ s.Within limit 0 ∧ first <:+ input ∧ rest <:+ next

/-- Statements and expressions within a limit are derived from tokens between `input` and
`rest`. -/
structure Nodes (limit : Nat) (input rest : List Token) (ss : List (Stmt Span))
    (es : List (Expr Span)) : Prop where
  /-- Each statement has tokens of its own. -/
  statements : ∀ s ∈ ss, s.SpeltIn limit input rest
  /-- So has each expression. -/
  expressions : ∀ e ∈ es, e.SpeltIn limit input rest

namespace Nodes

variable {limit : Nat} {input input' rest rest' : List Token} {ss ss' : List (Stmt Span)}
  {es es' : List (Expr Span)}

theorem none : Nodes limit input rest [] [] :=
  ⟨List.forall_mem_nil _, List.forall_mem_nil _⟩

/-- What stands between tokens stands between tokens further apart. -/
theorem widen (h : Nodes limit input rest ss es) (hinput : input <:+ input')
    (hrest : rest' <:+ rest) : Nodes limit input' rest' ss es := by
  constructor
  · intro s hs
    rcases h.statements s hs with ⟨first, next, hderives, hwithin, hfirst, hnext⟩
    exact ⟨first, next, hderives, hwithin, hfirst.trans hinput, hrest.trans hnext⟩
  · intro e he
    rcases h.expressions e he with ⟨level, first, next, hderives, hneed, hfirst, hnext⟩
    exact ⟨level, first, next, hderives, hneed, hfirst.trans hinput, hrest.trans hnext⟩

/-- The parts of two phrases, of which the second stands after the first. -/
theorem append {middle later : List Token} (h : Nodes limit input middle ss es)
    (hlater : later <:+ middle) (h' : Nodes limit later rest ss' es')
    (hmiddle : middle <:+ input) (hrest : rest <:+ later) :
    Nodes limit input rest (ss ++ ss') (es ++ es') := by
  have hfront := h.widen List.suffix_rfl (hrest.trans hlater)
  have hback := h'.widen (hlater.trans hmiddle) List.suffix_rfl
  exact ⟨List.forall_mem_append.mpr ⟨hfront.statements, hback.statements⟩,
    List.forall_mem_append.mpr ⟨hfront.expressions, hback.expressions⟩⟩

/-- An expression that is derived within the limit is added to others. -/
theorem expression {level : Level} {e : Expr Span} (he : e.Derives level input rest)
    (hneed : e.need ≤ limit) (h : Nodes limit input rest [] es) :
    Nodes limit input rest [] (e :: es) :=
  ⟨h.statements, List.forall_mem_cons.mpr
    ⟨⟨level, input, rest, he, hneed, List.suffix_rfl, List.suffix_rfl⟩, h.expressions⟩⟩

/-- A statement that is derived within the limit is added to others. -/
theorem statement {blocks : Nat} {s : Stmt Span} (hs : s.Derives input rest)
    (hwithin : s.Within limit blocks) (h : Nodes limit input rest ss es) :
    Nodes limit input rest (s :: ss) es :=
  ⟨List.forall_mem_cons.mpr
    ⟨⟨input, rest, hs, hwithin.mono (Nat.zero_le _), List.suffix_rfl, List.suffix_rfl⟩,
      h.statements⟩, h.expressions⟩

end Nodes

mutual

/-- The parts of an expression are derived from some of its tokens. -/
theorem Expr.Derives.nodes {limit : Nat} : ∀ {level : Level} {input rest : List Token}
    {e : Expr Span}, e.Derives level input rest → e.need ≤ limit → Nodes limit input rest [] e.parts
  | _, _, _, _, .literal kind hkind, hneed => .expression (.literal kind hkind) hneed .none
  | _, _, _, _, .name hkind, hneed => .expression (.name hkind) hneed .none
  | _, _, _, _, .group hleft hinner hright, hneed => by
      refine .expression (.group hleft hinner hright) hneed ?_
      rw [Expr.need] at hneed
      exact (hinner.nodes (by omega)).widen (List.suffix_cons _ _) (List.suffix_cons _ _)
  | _, _, _, _, .call hcallee hleft hends harguments, hneed => by
      refine .expression (.call hcallee hleft hends harguments) hneed ?_
      rw [Expr.need] at hneed
      exact (harguments.nodes (by omega)).widen
        ((hends.suffix.trans (List.suffix_cons _ _)).trans (List.suffix_cons _ _)) List.suffix_rfl
  | _, _, _, _, .negate hsign hinner, hneed => by
      refine .expression (.negate hsign hinner) hneed ?_
      rw [Expr.need] at hneed
      exact (hinner.nodes (by omega)).widen (List.suffix_cons _ _) List.suffix_rfl
  | _, _, _, _, .binary op hleft hsymbol hright, hneed => by
      refine .expression (.binary op hleft hsymbol hright) hneed ?_
      rw [Expr.need] at hneed
      exact (hleft.nodes (by omega)).append (List.suffix_cons _ _) (hright.nodes (by omega))
        hleft.suffix hright.suffix
  | _, _, _, _, .tighter h, hneed => h.nodes hneed

/-- The parts of arguments are derived from tokens of the arguments. -/
theorem Expr.DerivesArguments.nodes {limit : Nat} : ∀ {input rest : List Token}
    {es : List (Expr Span)} {close : Token}, Expr.DerivesArguments input es close rest →
      Expr.needAll es ≤ limit → Nodes limit input rest [] (Expr.allParts es)
  | _, _, _, _, .none _, _ => .none
  | _, _, _, _, .last h hends _, hneed => by
      rw [Expr.needAll] at hneed
      have hrest := (List.suffix_cons _ _).trans hends.suffix
      exact (h.nodes (by omega)).append hrest .none h.suffix List.suffix_rfl
  | _, _, _, _, .more h hends _ hafter hmore, hneed => by
      rw [Expr.needAll] at hneed
      have hmiddle := (hafter.suffix.trans (List.suffix_cons _ _)).trans hends.suffix
      exact (h.nodes (by omega)).append hmiddle (hmore.nodes (by omega)) h.suffix hmore.suffix

end

mutual

/-- The parts of a statement are derived from some of its tokens. -/
theorem Stmt.Derives.nodes {limit : Nat} : ∀ {blocks : Nat} {input rest : List Token}
    {s : Stmt Span}, s.Derives input rest → s.Within limit blocks →
      Nodes limit input rest s.parts s.expressions
  | _, _, _, _, .comment hkind hend, hwithin => .statement (.comment hkind hend) hwithin .none
  | _, _, _, _, .blank hkind, hwithin => .statement (.blank hkind) hwithin .none
  | _, _, _, _, .assign hstart htarget hsign hvalue hend, hwithin => by
      refine .statement (.assign hstart htarget hsign hvalue hend) hwithin ?_
      rw [Stmt.Within] at hwithin
      exact (hvalue.nodes (by omega)).widen
        (((List.suffix_cons _ _).trans (List.suffix_cons _ _)).trans (List.suffix_cons _ _))
        hend.suffix
  | _, _, _, _, .cond hstart htest hbody halternative hend, hwithin => by
      refine .statement (.cond hstart htest hbody halternative hend) hwithin ?_
      rw [Stmt.Within] at hwithin
      have hblocks := (hbody.nodes hwithin.2.2.1).append List.suffix_rfl
        (halternative.nodes hwithin.2.2.2) hbody.suffix halternative.suffix
      exact ((htest.nodes (by omega)).append List.suffix_rfl hblocks htest.suffix
        (halternative.suffix.trans hbody.suffix)).widen (List.suffix_cons _ _) hend.suffix
  | _, _, _, _, .run hvalue hend, hwithin => by
      refine .statement (.run hvalue hend) hwithin ?_
      rw [Stmt.Within] at hwithin
      exact (hvalue.nodes (by omega)).widen List.suffix_rfl hend.suffix

/-- The parts of statements are derived from some of their tokens. -/
theorem Stmt.DerivesAll.nodes {limit : Nat} : ∀ {blocks : Nat} {input rest : List Token}
    {ss : List (Stmt Span)}, Stmt.DerivesAll input ss rest → Stmt.AllWithin limit blocks ss →
      Nodes limit input rest (Stmt.allParts ss) (Stmt.allExpressions ss)
  | _, _, _, _, .nil, _ => .none
  | _, _, _, _, .cons h hmore, hwithin =>
      (h.nodes hwithin.1).append List.suffix_rfl (hmore.nodes hwithin.2) h.suffix hmore.suffix

/-- The parts of a block are derived from tokens of the block. -/
theorem Stmt.DerivesBlock.nodes {limit : Nat} : ∀ {blocks : Nat} {input rest : List Token}
    {body : List (Stmt Span)} {place : Span}, Stmt.DerivesBlock input body place rest →
      Stmt.AllWithin limit blocks body →
        Nodes limit input rest (Stmt.allParts body) (Stmt.allExpressions body)
  | _, _, _, _, _, .braces _ _ hbody _, hwithin =>
      (hbody.nodes hwithin).widen ((List.suffix_cons _ _).trans (List.suffix_cons _ _))
        (List.suffix_cons _ _)

/-- The parts of what follows the body of a conditional are derived from its tokens. -/
theorem Else.Derives.nodes {limit : Nat} : ∀ {blocks : Nat} {input rest : List Token}
    {a : Else Span}, Else.Derives input a rest → a.Within limit blocks →
      Nodes limit input rest a.parts a.expressions
  | _, _, _, _, .absent, _ => .none
  | _, _, _, _, .block _ hblock, hwithin =>
      (hblock.nodes hwithin.2).widen (List.suffix_cons _ _) List.suffix_rfl
  | _, _, _, _, .elseIf _ _ htest hblock hmore, hwithin => by
      rw [Else.Within] at hwithin
      have hblocks := (hblock.nodes hwithin.2.2.1).append List.suffix_rfl
        (hmore.nodes hwithin.2.2.2) hblock.suffix hmore.suffix
      exact ((htest.nodes (by omega)).append List.suffix_rfl hblocks htest.suffix
        (hmore.suffix.trans hblock.suffix)).widen
          ((List.suffix_cons _ _).trans (List.suffix_cons _ _)) List.suffix_rfl

end

end Shellward
