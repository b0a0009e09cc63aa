import Shellward.Proofs.Grammar.Nodes
import Shellward.Proofs.Grammar.Salvage
import Shellward.Proofs.Script.Outline

/-!
# Spans are nested

The places of a script that is read, with mistakes or without, are laid out as its parts are:
a part stands inside the part it belongs to, after the parts before it, and goes from where a
token starts to where a token stops.  Problems are reported at places of the source, and only
at its end at an empty one.

Main results:

- Theorem `Stmt.DerivesAll.laid`: derived statements are laid out along their tokens.
- Theorem `Outline.Laid.wellPlaced`: what is laid out along tokens is well placed.
- Theorem `Script.spans_nested`: the places of every script that is read, and of its problems.
-/

namespace Shellward

open Token (Ordered endOf)
open Outline (node allNodes)

/-! ### The tokens that a place covers -/

namespace Token

/-- Some of the tokens that are in order are in order. -/
theorem Ordered.sublist {ts us : List Token} (h : Ordered us) (hsublist : ts.Sublist us) :
    Ordered ts :=
  ⟨h.apart.sublist hsublist, fun t ht => h.proper t (hsublist.subset ht)⟩

/-- Of tokens in order, none stops after the last one. -/
theorem Ordered.le_endOf {t : Token} {ts : List Token} (h : Ordered (t :: ts)) :
    ∀ u ∈ t :: ts, u.span.stop ≤ endOf t.span.stop ts := by
  induction ts generalizing t with
  | nil => simp [endOf]
  | cons v ts ih =>
      have hlater := ih h.tail
      refine List.forall_mem_cons.mpr ⟨?_, hlater⟩
      have hapart := (List.pairwise_cons.mp h.apart).1 v List.mem_cons_self
      have hproper := h.proper v (by simp)
      have hv := hlater v List.mem_cons_self
      rw [endOf]
      omega

/-- The end of some tokens is where one of them stops. -/
theorem exists_stop_eq_endOf (t : Token) (ts : List Token) :
    ∃ u ∈ t :: ts, u.span.stop = endOf t.span.stop ts := by
  induction ts generalizing t with
  | nil => exact ⟨t, List.mem_cons_self, rfl⟩
  | cons v ts ih =>
      rcases ih v with ⟨u, hu, hstop⟩
      exact ⟨u, List.mem_cons_of_mem t hu, hstop⟩

end Token

namespace Covers

variable {p q : Span} {input rest first next : List Token}

theorem suffix (h : Covers p input rest) : rest <:+ input := by
  rcases h with ⟨t, ts, rfl, _⟩
  exact ⟨t :: ts, rfl⟩

/-- A place goes from where one of its tokens starts to where one of them stops, and reaches
around all of them. -/
theorem exists_phrase (h : Covers p input rest) (hordered : Ordered input) :
    ∃ phrase, input = phrase ++ rest ∧
      (∃ t ∈ phrase, p.start = t.span.start) ∧ (∃ t ∈ phrase, p.stop = t.span.stop) ∧
      ∀ t ∈ phrase, p.start ≤ t.span.start ∧ t.span.stop ≤ p.stop := by
  rcases h with ⟨t, ts, rfl, rfl⟩
  have hphrase : Ordered (t :: ts) := hordered.sublist (List.sublist_append_left (t :: ts) rest)
  rcases Token.exists_stop_eq_endOf t ts with ⟨u, hu, hstop⟩
  refine ⟨t :: ts, rfl, ⟨t, List.mem_cons_self, rfl⟩, ⟨u, hu, hstop.symm⟩, fun v hv => ?_⟩
  refine ⟨?_, hphrase.le_endOf v hv⟩
  rcases List.mem_cons.mp hv with rfl | hmem
  · exact Nat.le_refl _
  · have hapart := (List.pairwise_cons.mp hphrase.apart).1 v hmem
    have hproper := hphrase.proper t List.mem_cons_self
    show t.span.start ≤ v.span.start
    omega

/-- A place whose tokens are among those of another one lies inside that one. -/
theorem inside (hp : Covers p input rest) (hq : Covers q first next) (hfirst : first <:+ input)
    (hrest : rest <:+ next) (hordered : Ordered input) : p.start ≤ q.start ∧ q.stop ≤ p.stop := by
  rcases hp.exists_phrase hordered with ⟨phrase, rfl, _, _, hbounds⟩
  rcases hq.exists_phrase (hordered.suffix hfirst) with
    ⟨inner, rfl, ⟨t, ht, hstart⟩, ⟨u, hu, hstop⟩, _⟩
  rcases hrest with ⟨after, rfl⟩
  rcases hfirst with ⟨before, hbefore⟩
  have hinput : before ++ (inner ++ after) ++ rest = phrase ++ rest := by simpa using hbefore
  have hphrase := List.append_cancel_right hinput
  have hmem : ∀ v ∈ inner, v ∈ phrase := fun v hv => by simp [← hphrase, hv]
  rw [hstart, hstop]
  exact ⟨(hbounds t (hmem t ht)).1, (hbounds u (hmem u hu)).2⟩

/-- A place whose tokens come after those of another one starts after that one stops. -/
theorem apart (hp : Covers p input rest) (hq : Covers q first next) (hfirst : first <:+ rest)
    (hordered : Ordered input) : p.stop ≤ q.start := by
  have hsuffix := hfirst.trans hp.suffix
  rcases hq.exists_phrase (hordered.suffix hsuffix) with ⟨inner, rfl, ⟨u, hu, hstart⟩, _⟩
  rcases hp.exists_phrase hordered with ⟨phrase, rfl, _, ⟨t, ht, hstop⟩, _⟩
  rw [hstart, hstop]
  refine (List.pairwise_append.mp hordered.apart).2.2 t ht u (hfirst.mem ?_)
  exact List.mem_append_left next hu

end Covers

/-! ### Outlines along tokens -/

namespace Outline

/-- Between `input` and `rest` there are the tokens of some outlines, one after the other, and
among the tokens of each those of its parts. -/
inductive Laid : List Token → List (Outline Span) → List Token → Prop where
  | nil {input rest : List Token} (h : rest <:+ input) : Laid input [] rest
  | cons {input first next rest : List Token} {p : Span} {parts os : List (Outline Span)}
      (hfirst : first <:+ input) (hplace : Covers p first next) (hparts : Laid first parts next)
      (hrest : Laid next os rest) : Laid input (node p parts :: os) rest

namespace Laid

variable {input input' middle rest rest' : List Token} {os os' : List (Outline Span)}

/-- The tokens after some outlines end the tokens that they are laid out along. -/
theorem suffix (h : Laid input os rest) : rest <:+ input := by
  induction h with
  | nil h => exact h
  | cons hfirst hplace _ _ _ ih => exact ih.trans (hplace.suffix.trans hfirst)

/-- Outlines are laid out along more tokens, before and after. -/
theorem widen (h : Laid input os rest) (hinput : input <:+ input') (hrest : rest' <:+ rest) :
    Laid input' os rest' := by
  induction h generalizing input' with
  | nil h => exact .nil (hrest.trans (h.trans hinput))
  | cons hfirst hplace hparts _ _ ih =>
      exact .cons (hfirst.trans hinput) hplace hparts (ih List.suffix_rfl hrest)

/-- Outlines are laid out one after the other. -/
theorem append (h : Laid input os middle) (h' : Laid middle os' rest) :
    Laid input (os ++ os') rest := by
  induction h with
  | nil hmiddle => exact h'.widen hmiddle List.suffix_rfl
  | cons hfirst hplace hparts _ _ ih => exact .cons hfirst hplace hparts (ih h')

/-- One outline, whose tokens are all there are. -/
theorem one {p : Span} (hplace : Covers p input rest) (hparts : Laid input os rest) :
    Laid input [node p os] rest :=
  .cons List.suffix_rfl hplace hparts (.nil List.suffix_rfl)

/-- One token is the place of a part by itself. -/
theorem token (t : Token) (rest : List Token) : Laid (t :: rest) [node t.span []] rest :=
  one (.token t rest) (.nil (List.suffix_cons t rest))

end Laid
end Outline

open Outline (Laid)

/-! ### Derivations are laid out along their tokens -/

mutual

/-- An expression is laid out along the tokens that it is derived from. -/
theorem Expr.Derives.laid : ∀ {level : Level} {input rest : List Token} {e : Expr Span},
    Expr.Derives level input e rest → Ordered input → Laid input [e.outline] rest
  | _, _, _, _, .literal _ _, _ | _, _, _, _, .name _, _ => .token _ _
  | _, _, _, _, .group hleft hinner hright, hordered =>
      .one ((Expr.Derives.group hleft hinner hright).covers hordered)
        ((hinner.laid hordered.tail).widen (List.suffix_cons _ _) (List.suffix_cons _ _))
  | _, _, _, _, .call hcallee hleft hends harguments, hordered =>
      .one ((Expr.Derives.call hcallee hleft hends harguments).covers hordered)
        ((Laid.token _ _).append ((harguments.laid (hordered.tail.tail.suffix hends.suffix)).widen
          (hends.suffix.trans (List.suffix_cons _ _)) List.suffix_rfl))
  | _, _, _, _, .negate hsign hinner, hordered =>
      .one ((Expr.Derives.negate hsign hinner).covers hordered)
        ((hinner.laid hordered.tail).widen (List.suffix_cons _ _) List.suffix_rfl)
  | _, _, _, _, .binary op hleft hsymbol hright, hordered =>
      have hmiddle := (List.suffix_cons _ _).trans hleft.suffix
      .one ((Expr.Derives.binary op hleft hsymbol hright).covers hordered)
        ((hleft.laid hordered).append ((hright.laid (hordered.suffix hmiddle)).widen
          (List.suffix_cons _ _) List.suffix_rfl))
  | _, _, _, _, .tighter h, hordered => h.laid hordered

/-- Arguments are laid out along the tokens that they are derived from. -/
theorem Expr.DerivesArguments.laid : ∀ {input rest : List Token} {es : List (Expr Span)}
    {close : Token}, Expr.DerivesArguments input es close rest → Ordered input →
      Laid input (Expr.outlines es) rest
  | _, _, _, _, .none _, _ => .nil (List.suffix_cons _ _)
  | _, _, _, _, .last h hends _, hordered =>
      (h.laid hordered).widen List.suffix_rfl ((List.suffix_cons _ _).trans hends.suffix)
  | _, _, _, _, .more h hends _ hafter hmore, hordered =>
      have hnext := (hafter.suffix.trans (List.suffix_cons _ _)).trans hends.suffix
      (h.laid hordered).append ((hmore.laid (hordered.suffix (hnext.trans h.suffix))).widen hnext
        List.suffix_rfl)

end

mutual

/-- A statement is laid out along the tokens that it is derived from. -/
theorem Stmt.Derives.laid : ∀ {input rest : List Token} {s : Stmt Span},
    Stmt.Derives input s rest → Ordered input → Laid input [s.outline] rest
  | _, _, _, .comment _ hend, _ => (Laid.token _ _).widen List.suffix_rfl hend.suffix
  | _, _, _, .blank _, _ => .token _ _
  | _, _, _, .assign _ _ _ hvalue hend, hordered =>
      have hvalueordered := hordered.tail.tail.tail
      have hsuffix := (List.suffix_cons _ _).trans (List.suffix_cons _ _)
      have hplace := (Covers.token _ _).merge hsuffix (hvalue.covers hvalueordered) hordered
      have htarget := (Laid.token _ _).widen (List.suffix_cons _ _) List.suffix_rfl
      have hparts := htarget.append ((hvalue.laid hvalueordered).widen (List.suffix_cons _ _)
        List.suffix_rfl)
      (Laid.one hplace hparts).widen List.suffix_rfl hend.suffix
  | _, _, _, .cond _ htest hbody halternative hend, hordered => by
      have hfirst := hordered.tail.suffix htest.suffix
      rcases halternative.covers hfirst hbody.suffix (hbody.covers hfirst) with
        ⟨block, hblock, hlast⟩
      have hplace := (Covers.token _ _).merge (hblock.trans htest.suffix) hlast hordered
      have hblocks := (hbody.laid hfirst).append
        (halternative.laid (hfirst.suffix hbody.suffix))
      have hparts := (htest.laid hordered.tail).append hblocks
      exact (Laid.one hplace (hparts.widen (List.suffix_cons _ _) List.suffix_rfl)).widen
        List.suffix_rfl hend.suffix
  | _, _, _, .run hvalue hend, hordered =>
      (Laid.one (hvalue.covers hordered) (hvalue.laid hordered)).widen List.suffix_rfl hend.suffix

/-- Derived statements are laid out along their tokens. -/
theorem Stmt.DerivesAll.laid : ∀ {input rest : List Token} {ss : List (Stmt Span)},
    Stmt.DerivesAll input ss rest → Ordered input → Laid input (Stmt.outlines ss) rest
  | _, _, _, .nil, _ => .nil List.suffix_rfl
  | _, _, _, .cons h hmore, hordered =>
      (h.laid hordered).append (hmore.laid (hordered.suffix h.suffix))

/-- A block is laid out along the tokens that it is derived from. -/
theorem Stmt.DerivesBlock.laid : ∀ {input rest : List Token} {body : List (Stmt Span)}
    {place : Span}, Stmt.DerivesBlock input body place rest → Ordered input →
      Laid input [node place (Stmt.outlines body)] rest
  | _, _, _, _, .braces hleft hline hbody hright, hordered =>
      .one ((Stmt.DerivesBlock.braces hleft hline hbody hright).covers hordered)
        ((hbody.laid hordered.tail.tail).widen
          ((List.suffix_cons _ _).trans (List.suffix_cons _ _)) (List.suffix_cons _ _))

/-- What follows the body of a conditional is laid out along the tokens that it is
derived from. -/
theorem Else.Derives.laid : ∀ {input rest : List Token} {a : Else Span},
    Else.Derives input a rest → Ordered input → Laid input a.outlines rest
  | _, _, _, .absent, _ => .nil List.suffix_rfl
  | _, _, _, .block _ hblock, hordered =>
      (hblock.laid hordered.tail).widen (List.suffix_cons _ _) List.suffix_rfl
  | _, _, _, .elseIf _ _ htest hblock hmore, hordered =>
      have hfirst := hordered.tail.tail.suffix htest.suffix
      have hblocks := (hblock.laid hfirst).append (hmore.laid (hfirst.suffix hblock.suffix))
      ((htest.laid hordered.tail.tail).append hblocks).widen
        ((List.suffix_cons _ _).trans (List.suffix_cons _ _)) List.suffix_rfl

end

/-! ### What is laid out along tokens is well placed -/

namespace Outline

/-- A part of a script stands at tokens of the source, around its own parts, which follow one
another. -/
structure WellPlaced (source : Source) (o : Outline Span) : Prop where
  nonempty : o.place.start < o.place.stop
  bounded : o.place.stop ≤ source.length
  /-- It starts where a token starts. -/
  starts : ∃ t ∈ Token.tokensFrom 0 source, o.place.start = t.span.start
  /-- It stops where a token stops. -/
  stops : ∃ t ∈ Token.tokensFrom 0 source, o.place.stop = t.span.stop
  /-- Its parts are inside. -/
  inside : ∀ part ∈ o.parts, o.place.start ≤ part.place.start ∧ part.place.stop ≤ o.place.stop
  /-- Its parts do not overlap and are in order. -/
  ordered : o.parts.Pairwise fun part part' => part.place.stop ≤ part'.place.start

namespace Laid

variable {input rest : List Token} {os : List (Outline Span)}

/-- Each of the outlines has tokens of its own. -/
theorem covers (h : Laid input os rest) :
    ∀ o ∈ os, ∃ first next, first <:+ input ∧ rest <:+ next ∧ Covers o.place first next := by
  induction h with
  | nil => exact List.forall_mem_nil _
  | @cons _ first next _ _ _ _ hfirst hplace _ hrest _ ih =>
      refine List.forall_mem_cons.mpr ⟨⟨first, next, hfirst, hrest.suffix, hplace⟩, ?_⟩
      intro o ho
      rcases ih o ho with ⟨first', next', hfirst', hnext', hplace'⟩
      exact ⟨first', next', hfirst'.trans (hplace.suffix.trans hfirst), hnext', hplace'⟩

/-- The outlines follow one another. -/
theorem pairwise (h : Laid input os rest) (hordered : Ordered input) :
    os.Pairwise fun o o' => o.place.stop ≤ o'.place.start := by
  induction h with
  | nil => exact .nil
  | cons hfirst hplace _ hrest _ ih =>
      have hfirstordered := hordered.suffix hfirst
      refine .cons ?_ (ih (hfirstordered.suffix hplace.suffix))
      intro o ho
      rcases hrest.covers o ho with ⟨first', _, hfirst', _, hplace'⟩
      exact hplace.apart hplace' hfirst' hfirstordered

end Laid
end Outline

namespace Token

/-- A token before the end mark has a byte, and is inside the source. -/
theorem span_of_mem_tokensFrom {source : Source} {t : Token} (ht : t ∈ tokensFrom 0 source) :
    t.span.start < t.span.stop ∧ t.span.stop ≤ source.length := by
  have htiling := tiling_tokensFrom 0 source
  have hpairwise := htiling.pairwise
  rcases htiling.exists_last with ⟨front, hfront, htokens⟩
  have hstop := (List.pairwise_append.mp hpairwise).2.2 t ht _ (List.mem_singleton.mpr rfl)
  rw [List.append_cancel_right hfront] at ht
  rw [Nat.zero_add] at hstop
  exact ⟨(htokens t ht).2, hstop⟩

/-- The tokens of a phrase before the end mark are before the end mark. -/
theorem mem_of_phrase {phrase next kept : List Token} {mark : Token}
    (hphrase : phrase ++ next <:+ kept ++ [mark]) (hnext : [mark] <:+ next) :
    ∀ t ∈ phrase, t ∈ kept := by
  rcases hphrase with ⟨before, hbefore⟩
  rcases hnext with ⟨after, rfl⟩
  have hinput : before ++ (phrase ++ after) ++ [mark] = kept ++ [mark] := by simpa using hbefore
  intro t ht
  simp [← List.append_cancel_right hinput, ht]

end Token

/-- What is laid out along tokens of a source, in their order and before its end mark, is well
placed. -/
theorem Outline.Laid.wellPlaced {source : Source} {kept input rest : List Token}
    {os : List (Outline Span)} (hkept : kept.Sublist (Token.tokensFrom 0 source))
    (h : Laid input os rest) (hinput : input <:+ kept ++ [Token.endMark source.length])
    (hrest : [Token.endMark source.length] <:+ rest) :
    ∀ o ∈ allNodes os, o.WellPlaced source := by
  have hordered : Ordered (kept ++ [Token.endMark source.length]) :=
    (Token.ordered_ofSource source).sublist (hkept.append_right _)
  induction h with
  | nil => exact List.forall_mem_nil _
  | @cons _ first next _ p parts os hfirst hplace hparts hlater ihparts ih =>
      have hfirst' := hfirst.trans hinput
      have hnext := hrest.trans hlater.suffix
      rw [allNodes, nodes, List.cons_append, List.forall_mem_cons, List.forall_mem_append]
      refine ⟨?_, ihparts hfirst' hnext, ih (hplace.suffix.trans hfirst') hrest⟩
      have hfirstordered := hordered.suffix hfirst'
      rcases hplace.exists_phrase hfirstordered with
        ⟨phrase, hphrase, ⟨t, ht, hstart⟩, ⟨u, hu, hstop⟩, hbounds⟩
      have hmem : ∀ v ∈ phrase, v ∈ Token.tokensFrom 0 source := fun v hv =>
        hkept.mem (Token.mem_of_phrase (hphrase ▸ hfirst') hnext v hv)
      constructor
      · have hnonempty := (Token.span_of_mem_tokensFrom (hmem t ht)).1
        have hbound := (hbounds t ht).2
        show p.start < p.stop
        omega
      · have hbound := (Token.span_of_mem_tokensFrom (hmem u hu)).2
        show p.stop ≤ source.length
        omega
      · exact ⟨t, hmem t ht, hstart⟩
      · exact ⟨u, hmem u hu, hstop⟩
      · intro part hpart
        rcases hparts.covers part hpart with ⟨first', next', hfirst', hnext', hplace'⟩
        exact hplace.inside hplace' hfirst' hnext' hfirstordered
      · exact hparts.pairwise hfirstordered

/-! ### Scripts and their problems -/

/-- A place of a source, which may be empty only at its end. -/
structure Span.FitsIn (p : Span) (source : Source) : Prop where
  ordered : p.start ≤ p.stop
  bounded : p.stop ≤ source.length
  empty_at_end : p.start = p.stop → p.start = source.length

/-- A part that is well placed stands at a place of the source. -/
theorem Outline.WellPlaced.fitsIn {source : Source} {o : Outline Span} (h : o.WellPlaced source) :
    o.place.FitsIn source := by
  have hnonempty := h.nonempty
  exact ⟨by omega, h.bounded, fun hempty => by omega⟩

/-- A problem at a token of a source is at a place of it. -/
theorem Problem.At.fitsIn {q : Problem Span} {source : Source}
    (h : q.At (Token.ofSource source)) : q.place.FitsIn source := by
  rcases h with ⟨t, ht, hplace⟩
  rw [hplace]
  rcases List.mem_append.mp ht with ht | ht
  · have hspan := Token.span_of_mem_tokensFrom ht
    exact ⟨by omega, hspan.2, fun hempty => by omega⟩
  · rw [List.mem_singleton.mp ht]
    exact ⟨Nat.le_refl _, Nat.le_refl _, fun _ => rfl⟩

namespace Script

/-- The parts of a script that is read are laid out along some of its tokens. -/
theorem outlines_laid (source : Source) :
    ∃ kept : List Token, kept.Sublist (Token.tokensFrom 0 source) ∧
      Laid (kept ++ [Token.endMark source.length]) (read source).1.outlines
        [Token.endMark source.length] := by
  rcases exists_kept source with ⟨kept, hsublist, _, hderives, _⟩
  have hordered := (Token.ordered_ofSource source).sublist (hsublist.append_right _)
  exact ⟨kept, hsublist, hderives.laid hordered⟩

/-- Every part of a script that is read is well placed. -/
theorem wellPlaced_of_mem_outlines (source : Source) :
    ∀ o ∈ allNodes (read source).1.outlines, o.WellPlaced source := by
  rcases outlines_laid source with ⟨kept, hsublist, hlaid⟩
  exact hlaid.wellPlaced hsublist List.suffix_rfl List.suffix_rfl

/-- The problems that reading a source reports are at places of it. -/
theorem fitsIn_of_mem_read (source : Source) : ∀ q ∈ (read source).2, q.place.FitsIn source := by
  rcases exists_kept source with ⟨_, _, _, _, hplaces⟩
  exact fun q hq => (hplaces q hq).fitsIn

/-- The problems of a script that is refused are those found while reading. -/
theorem problems_of_parse {source : Source} {e : CompileError} (h : parse source = .error e) :
    e.problems = (read source).2 := by
  rw [parse] at h
  rcases hread : read source with ⟨script, problems⟩
  simp only [hread] at h
  split at h
  · contradiction
  · rw [← Except.error.inj h]
    rfl

/-- So are those that compiling it reports. -/
theorem fitsIn_of_compile {source : Source} {width : Nat} {e : CompileError}
    (h : Shellward.compile source width = .error e) :
    ∀ q ∈ e.problems, q.place.FitsIn source := by
  rw [Shellward.compile] at h
  cases hparse : parse source with
  | error malformed =>
      rw [hparse] at h
      rw [← Except.error.inj h, problems_of_parse hparse]
      exact fitsIn_of_mem_read source
  | ok script =>
      rw [hparse] at h
      change script.flatten.compile width = .error e at h
      rw [Script.compile, express] at h
      cases hshell : script.flatten.toShell with
      | ok shell =>
          rw [hshell] at h
          contradiction
      | error problems =>
          rw [hshell] at h
          rw [← Except.error.inj h]
          intro q hq
          rcases exists_node_of_toShell hshell q hq with ⟨o, ho, hplace⟩
          rw [← hplace]
          have hread : (read source).1 = script := by rw [parse_eq_ok_iff.mp hparse]
          exact (wellPlaced_of_mem_outlines source o (hread ▸ ho)).fitsIn

/-- In the tree that is read of a source, whether it has mistakes or not, every part stands at
tokens of the source and around its own parts, which follow one another, as the statements of
the script do.  The problems of reading and compiling the source are at places of it, and only
at its end at an empty one. -/
theorem spans_nested (source : Source) :
    (∀ o ∈ allNodes (read source).1.outlines, o.WellPlaced source) ∧
      ((read source).1.outlines.Pairwise fun o o' => o.place.stop ≤ o'.place.start) ∧
      (∀ q ∈ (read source).2, q.place.FitsIn source) ∧
      ∀ width e, Shellward.compile source width = .error e →
        ∀ q ∈ e.problems, q.place.FitsIn source := by
  refine ⟨wellPlaced_of_mem_outlines source, ?_, fitsIn_of_mem_read source,
    fun width e h => fitsIn_of_compile h⟩
  rcases outlines_laid source with ⟨kept, hsublist, hlaid⟩
  exact hlaid.pairwise ((Token.ordered_ofSource source).sublist (hsublist.append_right _))

/-- A block with a mistake in it, and a mistake at the end. -/
def mistakenSample : Source :=
  Utf8.encode "if f(a, -b) \x7b\n)\nlet x = (1 + 2)\n\x7d\nlet"

/-- A call without enough arguments. -/
def misuseSample : Source :=
  Utf8.encode "print(replace(x))\n"

/-- Two samples with mistakes, and the places of their parts and problems. -/
theorem spans_nested_samples :
    (∀ o ∈ allNodes (read mistakenSample).1.outlines, o.WellPlaced mistakenSample) ∧
      (allNodes (read mistakenSample).1.outlines).length = 13 ∧
      (∀ q ∈ (read mistakenSample).2, q.place.FitsIn mistakenSample) ∧
      (read mistakenSample).2.map Problem.place = [⟨14, 15⟩, ⟨37, 37⟩] ∧
      Shellward.compile misuseSample 4 =
        .error (.inexpressible [⟨.wrongArity "replace" 3 1, ⟨6, 16⟩⟩]) ∧
      Span.FitsIn ⟨6, 16⟩ misuseSample := by
  have herror : Shellward.compile misuseSample 4 =
      .error (.inexpressible [⟨.wrongArity "replace" 3 1, ⟨6, 16⟩⟩]) := by
    decide +kernel
  exact ⟨(spans_nested mistakenSample).1, by decide +kernel,
    (spans_nested mistakenSample).2.2.1, by decide +kernel, herror,
    (spans_nested misuseSample).2.2.2 4 _ herror _ (List.mem_singleton.mpr rfl)⟩

end Script
end Shellward
