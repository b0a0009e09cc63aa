import Shellward.Proofs.Grammar.Nodes
import Shellward.Proofs.Script.Concatenation

/-!
# The parts of a script read by themselves

The place of a statement or an expression holds its own text: the bytes of the script at
the place, read as a script, are just that statement, or a statement that runs just that
expression, with its places counted from its own beginning.

Main results:

- Theorem `Script.exists_readsAlone`: the bytes that a phrase covers are read as its
  statement.
- Theorem `Script.parts_read_alone`: the bytes at the place of any part of a script that is
  read without a problem are read as that part.
-/

namespace Shellward

open Shellward.Parser
open Token (tokensFrom endOf)

/-- Two places that are moved on alike to the same place are the same. -/
theorem Span.shift_inj {n : Nat} {s t : Span} (h : s.shift n = t.shift n) : s = t := by
  rcases s with ⟨start, stop⟩
  rcases t with ⟨start', stop'⟩
  simp only [shift, Span.mk.injEq] at h ⊢
  omega

namespace Script

/-- A place is a stretch of a script, and the bytes there are read as one statement alone. -/
structure ReadsAlone (source : Source) (place : Span) (s : Stmt Span) : Prop where
  /-- There is something at the place. -/
  nonempty : place.start < place.stop
  /-- The place ends within the script. -/
  stop_le : place.stop ≤ source.length
  /-- The bytes there are the statement, without a problem. -/
  reads : read (place.slice source) = (⟨[s]⟩, [])

/-- Bytes whose tokens, counted from an offset on, are a statement by themselves are read as
that statement, counted from their beginning. -/
theorem exists_read_of_phrase {bytes : Source} {n : Nat} {t : Token} {ts : List Token}
    {s : Stmt Span} (htokens : tokensFrom n bytes = t :: ts) (hphrase : Stmt.IsPhrase t ts s)
    (hwithin : s.Within maxNesting 0) :
    ∃ s', read bytes = (⟨[s']⟩, []) ∧ s'.map (Span.shift n) = s := by
  let mark := Token.endMark (bytes.length + n)
  let c : Cursor := ⟨[], t :: ts, mark⟩
  have hupcoming : c.upcoming = tokensFrom n bytes ++ [mark] := by
    rw [htokens]
    rfl
  have hproper : c.Proper := by
    refine ⟨rfl, fun u hu => ?_⟩
    have hmem : u ∈ tokensFrom n bytes := htokens ▸ hu
    exact (Token.spelling_of_mem_tokensFrom hmem).kind_ne_eof
  have hderives : Stmt.DerivesAll c.upcoming [s] [mark] := .cons (hphrase.derives rfl) .nil
  rcases hderives.reads_parseAll (Nat.zero_add maxNesting) ⟨hwithin, trivial⟩ ⟨mark, [], rfl, rfl⟩
    c hproper rfl with ⟨c', haccepts, -⟩
  -- Reading the bytes goes alike, on tokens that stand `n` bytes earlier.
  have hmoves := Stmt.parseAll_moves (Span.keepsMerge_shift n) maxNesting false
    (Cursor.moved_of_upcoming hupcoming)
  rw [haccepts] at hmoves
  have hproblems := List.map_eq_nil_iff.mp hmoves.problems.symm
  have hvalue := hmoves.value
  cases hread : (Stmt.parseAll maxNesting false
      (Cursor.ofTokens (Token.ofSource bytes))).value with
  | none =>
      rw [hread] at hvalue
      cases hvalue
  | some ss =>
      rw [hread] at hvalue
      cases hvalue with
      | some hss =>
          rw [Stmt.mapAll_eq_map] at hss
          rcases List.map_eq_singleton_iff.mp hss.symm with ⟨s', rfl, hs'⟩
          refine ⟨s', ?_, hs'⟩
          rw [read, ofTokens, hread, hproblems]
          rfl

/-- The bytes that a phrase of a script covers are read as its statement. -/
theorem exists_readsAlone {source : Source} {before ts later : List Token} {t : Token}
    {s : Stmt Span} (htokens : tokensFrom 0 source = before ++ (t :: ts ++ later))
    (hphrase : Stmt.IsPhrase t ts s) (hwithin : s.Within maxNesting 0) :
    ∃ s', ReadsAlone source s.place s' ∧ s'.map (Span.shift s.place.start) = s := by
  rcases Token.exists_bytes htokens with
    ⟨front, bytes, back, rfl, hne, hstart, hstop, hbytes⟩
  have hpos := List.length_pos_iff.mpr hne
  rcases exists_read_of_phrase hbytes hphrase hwithin with ⟨s', hread, hs'⟩
  rw [hphrase.place]
  refine ⟨s', ⟨?_, ?_, ?_⟩, hs'⟩
  · simp only
    omega
  · simp only [List.length_append]
    omega
  · have hslice : Span.slice (front ++ (bytes ++ back)) ⟨t.span.start, endOf t.span.stop ts⟩ =
        bytes := Span.slice_append hstart hstop
    rw [hslice, hread]

/-- A phrase before the end mark of a script stands among its other tokens. -/
theorem exists_tokens {source : Source} {mark t : Token} {first next ts : List Token}
    (hfirst : first <:+ Token.ofSource source) (hnext : [mark] <:+ next)
    (hphrase : first = t :: (ts ++ next)) :
    ∃ before later, tokensFrom 0 source = before ++ (t :: ts ++ later) := by
  rcases hfirst with ⟨before, hbefore⟩
  rcases hnext with ⟨later, rfl⟩
  refine ⟨before, later, ?_⟩
  have htokens : tokensFrom 0 source ++ [Token.endMark source.length] =
      (before ++ (t :: ts ++ later)) ++ [mark] := by
    rw [← Token.ofSource, ← hbefore, hphrase]
    simp
  exact (List.append_inj' htokens rfl).1

/-- Every statement and every expression of a script that is read without a problem stands
at its place: the bytes there are read without a problem as that statement alone, or as one
statement that runs that expression, with all places counted from there. -/
theorem parts_read_alone {source : Source} {script : Script Span}
    (h : parse source = .ok script) :
    (∀ s ∈ script.allStatements, ∃ s', ReadsAlone source s.place s' ∧
      s'.map (Span.shift s.place.start) = s) ∧
    ∀ e ∈ script.expressions, ∃ e', ReadsAlone source e.place (.run e' e'.place) ∧
      e'.map (Span.shift e.place.start) = e := by
  rcases derives_of_read (parse_eq_ok_iff.mp h) with ⟨⟨mark, -, hderives⟩, hwithin⟩
  have hnodes := hderives.nodes hwithin
  have hordered := Token.ordered_ofSource source
  constructor
  · intro s hs
    rcases hnodes.statements s hs with ⟨first, after, hs, hwithin, hfirst, hafter⟩
    rcases hs.exists_phrase (hordered.suffix hfirst) with ⟨t, ts, next, hinput, hnext, hphrase⟩
    rcases exists_tokens hfirst (hafter.trans hnext) hinput with ⟨before, later, htokens⟩
    exact exists_readsAlone htokens hphrase hwithin
  · intro e he
    rcases hnodes.expressions e he with ⟨level, first, next, he, hneed, hfirst, hnext⟩
    rcases he.exists_phrase (hordered.suffix hfirst) with ⟨t, ts, hinput, hphrase⟩
    rcases exists_tokens hfirst hnext hinput with ⟨before, later, htokens⟩
    have hwithin : (Stmt.run e e.place).Within maxNesting 0 := by
      rw [Stmt.Within]
      omega
    have halone : ∃ s', ReadsAlone source e.place s' ∧
        s'.map (Span.shift e.place.start) = .run e e.place :=
      exists_readsAlone htokens hphrase hwithin
    rcases halone with ⟨s', hreads, hs'⟩
    -- The statement read is one that runs an expression, at the place of that expression.
    cases s' with
    | run e' p =>
        rw [Stmt.map, Stmt.run.injEq] at hs'
        rcases hs' with ⟨he', hp⟩
        have hplace := Expr.place_map (Span.shift e.place.start) e'
        rw [he'] at hplace
        rw [Span.shift_inj (hp.trans hplace)] at hreads
        exact ⟨e', hreads, he'⟩
    | _ => simp [Stmt.map] at hs'

/-- A call over several lines, inside a conditional with a comment and a blank line. -/
def innerLines : Source :=
  Utf8.encode ("if f(b,\n    -c * (d + 2)) \x7b\n    # note\n\n" ++
    "    let x = g(\n      'p*',\n    )\n  \x7d")

/-- A script whose first block holds nothing but that conditional. -/
def innerSample : Source :=
  Utf8.encode "if a == 1 \x7b\n  " ++ innerLines ++ Utf8.encode "\n\x7d\n"

/-- The inner conditional of the sample is read alone, and so is the call in it. -/
theorem parts_read_alone_innerSample :
    ∃ script, parse innerSample = .ok script ∧
      (∃ s ∈ script.allStatements, s.place.slice innerSample = innerLines ∧
        ∃ s', ReadsAlone innerSample s.place s' ∧ s'.map (Span.shift s.place.start) = s) ∧
      ∃ e ∈ script.expressions,
        e.place.slice innerSample = Utf8.encode "g(\n      'p*',\n    )" ∧
        ∃ e', ReadsAlone innerSample e.place (.run e' e'.place) ∧
          e'.map (Span.shift e.place.start) = e := by
  have hparse : parse innerSample = .ok (read innerSample).1 :=
    parse_eq_ok_iff.mpr (Prod.ext rfl (by decide +kernel))
  have hstatement : ∃ s ∈ (read innerSample).1.allStatements,
      s.place.slice innerSample = innerLines := by
    decide +kernel
  have hexpression : ∃ e ∈ (read innerSample).1.expressions,
      e.place.slice innerSample = Utf8.encode "g(\n      'p*',\n    )" := by
    decide +kernel
  rcases hstatement with ⟨s, hs, hslice⟩
  rcases hexpression with ⟨e, he, hslice'⟩
  have hparts := parts_read_alone hparse
  exact ⟨_, hparse, ⟨s, hs, hslice, hparts.1 s hs⟩, e, he, hslice', hparts.2 e he⟩

end Script
end Shellward
