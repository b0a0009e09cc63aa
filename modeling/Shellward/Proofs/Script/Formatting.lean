import Shellward.Compile
import Shellward.Proofs.Script.Reprint

/-!
# Scripts in their own layout

A script that is written in its own layout reads back as the same script, apart from
places and from white space at the end of comments.  So writing it once more changes
nothing.

Every line of the layout is read on its own: its indentation is no token, and the line
end closes whatever stands before it.

Main results:

- Theorem `Stmt.DerivesAll.reprints`: the layout of statements reads back as them.
- Theorem `Script.format_reads_back`: a script that parses is written such that it
  parses to the same tree, and writing it again changes nothing.
-/

namespace Shellward

open Token

variable {π κ : Type}

/-! ### Comments without white space at their ends -/

mutual

/-- Drop the white space at the end of every comment of a statement. -/
def Stmt.trimComments : Stmt π → Stmt π
  | .comment text p => .comment (Text.trimEnd Text.isBlank text) p
  | .blank p => .blank p
  | .assign target tp value p => .assign target tp value p
  | .run value p => .run value p
  | .cond test body bp alternative p =>
      .cond test (Stmt.trimAllComments body) bp alternative.trimComments p

/-- Drop the white space at the end of every comment of several statements. -/
def Stmt.trimAllComments : List (Stmt π) → List (Stmt π)
  | [] => []
  | s :: ss => s.trimComments :: Stmt.trimAllComments ss

/-- Drop the white space at the end of every comment after the body of a conditional. -/
def Else.trimComments : Else π → Else π
  | .absent => .absent
  | .block body bp => .block (Stmt.trimAllComments body) bp
  | .elseIf test body bp rest =>
      .elseIf test (Stmt.trimAllComments body) bp rest.trimComments

end

/-- Drop the white space at the end of every comment of a script. -/
def Script.trimComments (s : Script π) : Script π :=
  ⟨Stmt.trimAllComments s.statements⟩

/-! ### Lines -/

namespace Line

/-- The bytes of lines of a script. -/
def bytes (lines : List Line) : Source :=
  Utf8.encode (renderAll Script.indentWidth lines)

/-- The bytes of spaces are spaces. -/
theorem encode_replicate_space (n : Nat) :
    Utf8.encode (Text.replicate n ' ') = List.replicate n 0x20 := by
  rw [Utf8.encode, Text.replicate, String.toList_ofList]
  induction n with
  | zero => rfl
  | succ n ih =>
      rw [List.replicate_succ, List.flatMap_cons, ih]
      rfl

/-- A line is written as its indentation, its text and a line feed, before the other lines. -/
theorem bytes_cons (line : Line) (lines : List Line) :
    bytes (line :: lines) = List.replicate (line.depth * Script.indentWidth) 0x20 ++
      (Utf8.encode line.text ++ (Utf8.encode "\n" ++ bytes lines)) := by
  rw [bytes, renderAll, List.map_cons, String.join_cons, render, Utf8.encode_append,
    Utf8.encode_append, Utf8.encode_append, encode_replicate_space, List.append_assoc,
    List.append_assoc]
  rfl

/-- Lines are written one after the other. -/
theorem bytes_append (xs ys : List Line) : bytes (xs ++ ys) = bytes xs ++ bytes ys := by
  rw [bytes, renderAll, List.map_append, String.join_append, Utf8.encode_append]
  rfl

end Line

/-- A line feed is read as a line end, whatever follows. -/
theorem readsBack_lineEnd : ReadsBack (fun _ => True) (Utf8.encode "\n") (Takes .newLine) :=
  readsBack_symbol (by decide) (by decide)

/-- A line feed closes what stands before it. -/
theorem closes_lineEnd (after : Source) : Closes (Utf8.encode "\n" ++ after) :=
  ⟨0x0a, after, rfl, by decide⟩

section Lines

variable {F : Source → Prop} {text : String} {lines : List Line}
  {P Q : List Token → List Token → Prop}

/-- A line is read as what its text is read as, a line end, and the later lines. -/
theorem readsBack_line (h : ReadsBack F (Utf8.encode text) P)
    (hF : ∀ after, F (Utf8.encode "\n" ++ after)) (depth : Nat)
    (hlines : ReadsBack (fun _ => True) (Line.bytes lines) Q) :
    ReadsBack (fun _ => True) (Line.bytes (⟨depth, text⟩ :: lines)) fun input rest =>
      ∃ middle next, P input middle ∧ Takes .newLine middle next ∧ Q next rest := by
  have hphrase := (ReadsBack.spaces (depth * Script.indentWidth)).append
    (h.append (readsBack_lineEnd.append hlines fun _ _ => trivial) fun after _ => hF _)
    fun _ _ => trivial
  rw [Line.bytes_cons]
  refine hphrase.imp ?_
  rintro _ rest ⟨_, rfl, middle, hP, next, hline, hQ⟩
  exact ⟨middle, next, hP, hline, hQ⟩

/-- The last line is read as what its text is read as, and a line end. -/
theorem readsBack_lastLine (h : ReadsBack F (Utf8.encode text) P)
    (hF : ∀ after, F (Utf8.encode "\n" ++ after)) (depth : Nat) :
    ReadsBack (fun _ => True) (Line.bytes [⟨depth, text⟩]) fun input rest =>
      ∃ middle, P input middle ∧ Takes .newLine middle rest := by
  have hnone : ReadsBack (fun _ => True) (Line.bytes []) fun input rest => input = rest :=
    ReadsBack.spaces 0
  refine (readsBack_line h hF depth hnone).imp ?_
  rintro _ rest ⟨middle, _, hP, hline, rfl⟩
  exact ⟨middle, hP, hline⟩

end Lines

/-! ### Statements -/

/-- A comment without the white space at its end is read as one token. -/
theorem Token.Printable.comment {t : Token} (h : t.Printable) (hkind : t.kind = .comment) :
    ReadsBack (fun after => ∃ later, after = Utf8.encode "\n" ++ later)
      (Utf8.encode (Text.trimEnd Text.isBlank t.lexeme)) fun input rest =>
        ∃ t' : Token, t'.kind = .comment ∧ t'.lexeme = Text.trimEnd Text.isBlank t.lexeme ∧
          input = t' :: rest := by
  rintro offset _ tail ⟨later, rfl⟩
  have heof : t.kind ≠ .eof := by simp [hkind]
  rcases (h heof).1.of_comment hkind with ⟨body, hbytes, hbody⟩
  rcases scan_trimmed_comment hbody with ⟨body', hencode, hscan⟩
  have htext : Utf8.encode (Text.trimEnd Text.isBlank t.lexeme) = 0x23 :: body' := by
    rw [lexeme, hbytes, hencode]
  rcases tokensFrom_of_scan (by decide) (hscan later) offset with
    ⟨t', offset', hkind', hbytes', htokens⟩
  refine ⟨offset', t', hkind', ?_, ?_⟩
  · rw [lexeme, hbytes', ← htext, Utf8.decode_encode]
  · rw [htext]
    exact congrArg (· ++ tail) htokens

/-- Being read as a statement that differs from `s` in places and the ends of comments. -/
def Stmt.ReadAgain (s : Stmt Span) (input rest : List Token) : Prop :=
  ∃ s' : Stmt Span, s'.Derives input rest ∧
    s'.map (fun _ => (default : Span)) = s.trimComments.map fun _ => default

/-- Being read as statements that differ from `ss` in places and the ends of comments. -/
def Stmt.AllReadAgain (ss : List (Stmt Span)) (input rest : List Token) : Prop :=
  ∃ ss' : List (Stmt Span), Stmt.DerivesAll input ss' rest ∧
    Stmt.mapAll (fun _ => (default : Span)) ss' =
      Stmt.mapAll (fun _ => default) (Stmt.trimAllComments ss)

/-- Being read as the end of a block and what follows it in a conditional. -/
def Else.ReadAgain (a : Else Span) (input rest : List Token) : Prop :=
  ∃ right middle last, right.kind = .rightBrace ∧ input = right :: middle ∧
    ∃ a' : Else Span, a'.Derives middle last ∧ Takes .newLine last rest ∧
      a'.map (fun _ => (default : Span)) = a.trimComments.map fun _ => default

/-- A left brace is read as one, whatever follows. -/
theorem readsBack_leftBrace :
    ReadsBack (fun _ => True) (Utf8.encode "\x7b") (Takes .leftBrace) :=
  readsBack_symbol (by decide) (by decide)

/-- A condition is followed by the brace that opens its block. -/
theorem readsBack_opening {text : String} {P : List Token → List Token → Prop}
    (h : ReadsBack Closes (Utf8.encode text) P) :
    ReadsBack (fun _ => True) (Utf8.encode (text ++ " \x7b")) fun input rest =>
      ∃ middle, P input middle ∧ Takes .leftBrace middle rest := by
  have hphrase := h.append (readsBack_space.append readsBack_leftBrace fun _ _ => trivial)
    fun after _ => closes_space _
  rw [Utf8.encode_append]
  refine hphrase.imp ?_
  rintro _ rest ⟨middle, hP, _, rfl, hleft⟩
  exact ⟨middle, hP, hleft⟩

/-- The last block of a conditional ends on a line of its own. -/
theorem Else.readsBack_absent (depth : Nat) :
    ReadsBack (fun _ => True) (Line.bytes ((Else.absent : Else Span).layout depth))
      Else.absent.ReadAgain := by
  have hbrace : ReadsBack (fun _ => True) (Utf8.encode "\x7d") (Takes .rightBrace) :=
    readsBack_symbol (by decide) (by decide)
  refine (readsBack_lastLine hbrace (fun _ => trivial) depth).imp ?_
  rintro _ rest ⟨_, ⟨right, hright, rfl⟩, hline⟩
  exact ⟨right, _, _, hright, rfl, .absent, .absent, hline, rfl⟩

/-- Where nothing follows a block, no tokens belong to what follows it. -/
theorem Else.Derives.eq_of_map_absent {input rest : List Token} {a : Else Span}
    (h : a.Derives input rest) (hmap : a.map (fun _ => (default : Span)) = .absent) :
    input = rest := by
  cases h with
  | absent => rfl
  | block | elseIf => simp [Else.map] at hmap

/-- A block that is not the last of a conditional ends before the word `else`. -/
theorem readsBack_else :
    ReadsBack (fun _ => True) (Utf8.encode "\x7d else ") fun input rest =>
      ∃ middle, Takes .rightBrace input middle ∧ Takes .elseWord middle rest := by
  have hbrace : ReadsBack (fun _ => True) (Utf8.encode "\x7d ") (Takes .rightBrace) :=
    @readsBack_symbol_space [0x7d] .rightBrace (by decide)
  have hword : ReadsBack (fun _ => True) (Utf8.encode "else ") (Takes .elseWord) :=
    @readsBack_keyword_space "else" .elseWord (by decide)
  exact hbrace.append hword fun _ _ => trivial

/-- The word `if` is read as one before the space that is written after it. -/
theorem readsBack_if : ReadsBack (fun _ => True) (Utf8.encode "if ") (Takes .ifWord) :=
  @readsBack_keyword_space "if" .ifWord (by decide)

/-- A line that opens a block is followed by the block and by what follows it. -/
theorem readsBack_block {text : String} {P : List Token → List Token → Prop}
    {body : List (Stmt Span)} {a : Else Span} {depth : Nat}
    (hopen : ReadsBack (fun _ => True) (Utf8.encode text) fun input rest =>
      ∃ middle, P input middle ∧ Takes .leftBrace middle rest)
    (hbody : ReadsBack (fun _ => True) (Line.bytes (Stmt.layoutAll (depth + 1) body))
      (Stmt.AllReadAgain body))
    (ha : ReadsBack (fun _ => True) (Line.bytes (a.layout depth)) a.ReadAgain) :
    ReadsBack (fun _ => True)
      (Line.bytes (⟨depth, text⟩ :: Stmt.layoutAll (depth + 1) body ++ a.layout depth))
      fun input rest => ∃ first second last body' place a', P input first ∧
        Stmt.DerivesBlock first body' place second ∧ Else.Derives second a' last ∧
        Takes .newLine last rest ∧
        Stmt.mapAll (fun _ => (default : Span)) body' =
          Stmt.mapAll (fun _ => default) (Stmt.trimAllComments body) ∧
        a'.map (fun _ => (default : Span)) = a.trimComments.map fun _ => default := by
  have hlines := hbody.append ha fun _ _ => trivial
  rw [← Line.bytes_append] at hlines
  refine (readsBack_line hopen (fun _ => trivial) depth hlines).imp ?_
  rintro _ rest ⟨_, _, ⟨first, hP, left, hleft, rfl⟩, ⟨line, hline, rfl⟩, _,
    ⟨body', hbody', hbodyErase⟩, right, second, last, hright, rfl, a', ha', hend, haErase⟩
  exact ⟨_, second, last, body', _, a', hP, .braces hleft hline hbody' hright, ha', hend,
    hbodyErase, haErase⟩

mutual

/-- The layout of a statement is read as it, apart from places and ends of comments. -/
theorem Stmt.Derives.reprints : ∀ {input rest : List Token} {s : Stmt Span},
    s.Derives input rest → (∀ t ∈ input, t.Printable) → ∀ depth : Nat,
      ReadsBack (fun _ => True) (Line.bytes (s.layout depth)) s.ReadAgain
  | _, _, _, @Stmt.Derives.comment t input rest hkind _, hinput, depth => by
      have hcomment := (hinput t List.mem_cons_self).comment hkind
      rw [Stmt.layout]
      refine (readsBack_lastLine hcomment (fun after => ⟨after, rfl⟩) depth).imp ?_
      rintro _ rest' ⟨_, ⟨t', hkind', hlexeme, rfl⟩, line, hline, rfl⟩
      refine ⟨_, .comment hkind' (.line hline), ?_⟩
      simp [Stmt.map, Stmt.trimComments, hlexeme]
  | _, _, _, .blank _, _, _ => by
      have hnone : ReadsBack (fun _ => True) (Utf8.encode "") fun input rest => input = rest :=
        ReadsBack.spaces 0
      refine (readsBack_lastLine hnone (fun _ => trivial) 0).imp ?_
      rintro _ rest' ⟨_, rfl, line, hline, rfl⟩
      refine ⟨_, .blank hline, ?_⟩
      simp [Stmt.map, Stmt.trimComments]
  | _, _, _, @Stmt.Derives.assign start target sign input middle rest value _ htarget _ hvalue _,
      hinput, depth => by
      have hlet : ReadsBack (fun _ => True) (Utf8.encode "let ") (Takes .letWord) :=
        @readsBack_keyword_space "let" .letWord (by decide)
      have hsign : ReadsBack (fun _ => True) (Utf8.encode "= ") (Takes .assign) :=
        @readsBack_symbol_space [0x3d] .assign (by decide)
      have hname := ((hinput target (by simp)).name htarget).weaken
        fun after hafter => closes_stopped_wordByte hafter
      have hphrase := hlet.append (hname.append ((readsBack_space.append hsign
        fun _ _ => trivial).append (hvalue.reprints fun t ht => hinput t (by simp [ht]))
          fun _ _ => trivial) fun after _ => closes_space _) fun _ _ => trivial
      have hbytes : Utf8.encode ("let " ++ target.lexeme ++ " = " ++ value.layout) =
          Utf8.encode "let " ++ (Utf8.encode target.lexeme ++
            (Utf8.encode " " ++ Utf8.encode "= " ++ Utf8.encode value.layout)) := by
        simp only [Utf8.encode_append, List.append_assoc]
        rfl
      rw [← hbytes] at hphrase
      rw [Stmt.layout]
      refine (readsBack_lastLine hphrase closes_lineEnd depth).imp ?_
      rintro _ rest' ⟨_, ⟨_, ⟨start', hstart', rfl⟩, _, ⟨target', htarget', hlexeme, rfl⟩, _,
        ⟨_, rfl, sign', hsign', rfl⟩, e', he', herase⟩, line, hline, rfl⟩
      refine ⟨_, .assign hstart' htarget' hsign' he' (.line hline), ?_⟩
      simp [Stmt.map, Stmt.trimComments, hlexeme, herase]
  | _, _, _, @Stmt.Derives.cond start input first second third rest test body place alternative _
      htest hbody halternative _, hinput, depth => by
      have hfirst : ∀ t ∈ first, t.Printable := fun t ht =>
        hinput t (List.mem_cons_of_mem start (htest.suffix.mem ht))
      have hif := readsBack_if.append
        (htest.reprints fun t ht => hinput t (List.mem_cons_of_mem start ht)) fun _ _ => trivial
      rw [← Utf8.encode_append] at hif
      have hblock := hbody.reprints hfirst (depth + 1)
      have helse := halternative.reprints (fun t ht => hfirst t (hbody.suffix.mem ht)) depth
      rw [Stmt.layout]
      refine (readsBack_block (readsBack_opening hif) hblock helse).imp ?_
      rintro _ rest' ⟨_, _, _, body', place', a', ⟨_, ⟨start', hstart', rfl⟩, e', he', herase⟩,
        hbody', ha', ⟨line, hline, rfl⟩, hbodyErase, haErase⟩
      refine ⟨_, .cond hstart' he' hbody' ha' (.line hline), ?_⟩
      simp [Stmt.map, Stmt.trimComments, herase, hbodyErase, haErase]
  | _, _, _, .run hvalue _, hinput, depth => by
      rw [Stmt.layout]
      refine (readsBack_lastLine (hvalue.reprints hinput) closes_lineEnd depth).imp ?_
      rintro _ rest' ⟨_, ⟨e', he', herase⟩, line, hline, rfl⟩
      refine ⟨_, .run he' (.line hline), ?_⟩
      simp [Stmt.map, Stmt.trimComments, herase]

/-- The layout of statements is read as them, apart from places and ends of comments. -/
theorem Stmt.DerivesAll.reprints : ∀ {input rest : List Token} {ss : List (Stmt Span)},
    Stmt.DerivesAll input ss rest → (∀ t ∈ input, t.Printable) → ∀ depth : Nat,
      ReadsBack (fun _ => True) (Line.bytes (Stmt.layoutAll depth ss)) (Stmt.AllReadAgain ss)
  | _, _, _, .nil, _, _ => by
      refine (ReadsBack.spaces 0).imp ?_
      rintro _ rest' rfl
      exact ⟨[], .nil, rfl⟩
  | _, _, _, .cons h hmore, hinput, depth => by
      have hlater := hmore.reprints (fun t ht => hinput t (h.suffix.mem ht)) depth
      rw [Stmt.layoutAll, Line.bytes_append]
      refine ((h.reprints hinput depth).append hlater fun _ _ => trivial).imp ?_
      rintro _ rest' ⟨_, ⟨s', hs', herase⟩, ss', hss', hallerase⟩
      refine ⟨s' :: ss', .cons hs' hss', ?_⟩
      rw [Stmt.trimAllComments, Stmt.mapAll, Stmt.mapAll, herase, hallerase]

/-- The layout of the statements in a block is read as them. -/
theorem Stmt.DerivesBlock.reprints : ∀ {input rest : List Token} {body : List (Stmt Span)}
    {place : Span}, Stmt.DerivesBlock input body place rest → (∀ t ∈ input, t.Printable) →
      ∀ depth : Nat,
        ReadsBack (fun _ => True) (Line.bytes (Stmt.layoutAll depth body)) (Stmt.AllReadAgain body)
  | _, _, _, _, .braces _ _ hbody _, hinput, depth =>
      hbody.reprints (fun t ht => hinput t (List.mem_cons_of_mem _ (List.mem_cons_of_mem _ ht)))
        depth

/-- The layout of the end of a block and what follows it is read as that. -/
theorem Else.Derives.reprints : ∀ {input rest : List Token} {a : Else Span},
    a.Derives input rest → (∀ t ∈ input, t.Printable) → ∀ depth : Nat,
      ReadsBack (fun _ => True) (Line.bytes (a.layout depth)) a.ReadAgain
  | _, _, _, .absent, _, depth => Else.readsBack_absent depth
  | _, _, _, .block _ hbody, hinput, depth => by
      have hopen := readsBack_else.append readsBack_leftBrace fun _ _ => trivial
      rw [← Utf8.encode_append] at hopen
      have hlast := Else.readsBack_absent depth
      have hblock := hbody.reprints (fun t ht => hinput t (List.mem_cons_of_mem _ ht)) (depth + 1)
      rw [Else.layout]
      refine (readsBack_block hopen hblock hlast).imp ?_
      rintro _ rest' ⟨_, _, last, body', place, a', ⟨_, ⟨right, hright, rfl⟩, word, hword, rfl⟩,
        hbody', ha', hend, hbodyErase, haErase⟩
      have hnone := ha'.eq_of_map_absent haErase
      rw [← hnone] at hend
      refine ⟨right, _, _, hright, rfl, .block body' place, .block hword hbody', hend, ?_⟩
      rw [Else.trimComments, Else.map, Else.map, hbodyErase]
  | _, _, _, @Else.Derives.elseIf word start input first second rest test body place alternative _ _
      htest hbody halternative, hinput, depth => by
      have hfirst : ∀ t ∈ first, t.Printable := fun t ht =>
        hinput t (List.mem_cons_of_mem word (List.mem_cons_of_mem start (htest.suffix.mem ht)))
      have hif := readsBack_else.append (readsBack_if.append
        (htest.reprints fun t ht => hinput t (by simp [ht])) fun _ _ => trivial) fun _ _ => trivial
      rw [← Utf8.encode_append, ← Utf8.encode_append] at hif
      have hblock := hbody.reprints hfirst (depth + 1)
      have helse := halternative.reprints (fun t ht => hfirst t (hbody.suffix.mem ht)) depth
      have hphrase := readsBack_block (readsBack_opening hif) hblock helse
      rw [← String.append_assoc] at hphrase
      rw [Else.layout]
      refine hphrase.imp ?_
      rintro _ rest' ⟨_, second', last, body', place', a', ⟨_, ⟨_, ⟨right, hright, rfl⟩, word',
        hword', rfl⟩, _, ⟨start', hstart', rfl⟩, e', he', herase⟩, hbody', ha', hend, hbodyErase,
        haErase⟩
      refine ⟨right, _, last, hright, rfl, .elseIf e' body' place' a',
        .elseIf hword' hstart' he' hbody' ha', hend, ?_⟩
      rw [Else.trimComments, Else.map, Else.map, hbodyErase, haErase]
      exact congrArg (Else.elseIf · _ _ _) herase

end

/-! ### What places and the ends of comments do not change -/

mutual

/-- The room that an expression needs does not depend on its places. -/
@[simp]
theorem Expr.need_map (f : π → κ) : ∀ e : Expr π, (e.map f).need = e.need
  | .literal .. | .name .. => by simp [Expr.map, Expr.need]
  | .call _ _ _ arguments _ => by simp [Expr.map, Expr.need, Expr.needAll_mapAll f arguments]
  | .binary _ left right _ => by
      simp [Expr.map, Expr.need, Expr.need_map f left, Expr.need_map f right]
  | .negate inner _ | .group inner _ => by simp [Expr.map, Expr.need, Expr.need_map f inner]

/-- The room that several expressions need does not depend on their places. -/
theorem Expr.needAll_mapAll (f : π → κ) :
    ∀ es : List (Expr π), Expr.needAll (Expr.mapAll f es) = Expr.needAll es
  | [] => by simp [Expr.mapAll, Expr.needAll]
  | e :: es => by
      simp [Expr.mapAll, Expr.needAll, Expr.need_map f e, Expr.needAll_mapAll f es]

end

mutual

/-- Whether a statement keeps to the limit does not depend on its places. -/
theorem Stmt.within_map (f : π → κ) (limit blocks : Nat) :
    ∀ s : Stmt π, (s.map f).Within limit blocks ↔ s.Within limit blocks
  | .comment .. | .blank _ | .assign .. | .run .. => by simp [Stmt.map, Stmt.Within]
  | .cond _ body _ alternative _ => by
      simp [Stmt.map, Stmt.Within, Stmt.allWithin_mapAll f limit _ body,
        Else.within_map f limit _ alternative]

/-- Whether several statements keep to the limit does not depend on their places. -/
theorem Stmt.allWithin_mapAll (f : π → κ) (limit blocks : Nat) :
    ∀ ss : List (Stmt π),
      Stmt.AllWithin limit blocks (Stmt.mapAll f ss) ↔ Stmt.AllWithin limit blocks ss
  | [] => by simp [Stmt.mapAll, Stmt.AllWithin]
  | s :: ss => by
      simp [Stmt.mapAll, Stmt.AllWithin, Stmt.within_map f limit _ s,
        Stmt.allWithin_mapAll f limit _ ss]

/-- Whether what follows the body of a conditional keeps to the limit does not depend on its
places. -/
theorem Else.within_map (f : π → κ) (limit blocks : Nat) :
    ∀ a : Else π, (a.map f).Within limit blocks ↔ a.Within limit blocks
  | .absent => by simp [Else.map, Else.Within]
  | .block body _ => by simp [Else.map, Else.Within, Stmt.allWithin_mapAll f limit _ body]
  | .elseIf _ body _ rest => by
      simp [Else.map, Else.Within, Stmt.allWithin_mapAll f limit _ body,
        Else.within_map f limit _ rest]

end

mutual

/-- Whether a statement keeps to the limit does not depend on the ends of its comments. -/
theorem Stmt.within_trimComments (limit blocks : Nat) :
    ∀ s : Stmt π, s.trimComments.Within limit blocks ↔ s.Within limit blocks
  | .comment .. | .blank _ | .assign .. | .run .. => by simp [Stmt.trimComments, Stmt.Within]
  | .cond _ body _ alternative _ => by
      simp [Stmt.trimComments, Stmt.Within, Stmt.allWithin_trimAllComments limit _ body,
        Else.within_trimComments limit _ alternative]

/-- Whether several statements keep to the limit does not depend on the ends of their comments. -/
theorem Stmt.allWithin_trimAllComments (limit blocks : Nat) :
    ∀ ss : List (Stmt π),
      Stmt.AllWithin limit blocks (Stmt.trimAllComments ss) ↔ Stmt.AllWithin limit blocks ss
  | [] => by simp [Stmt.trimAllComments, Stmt.AllWithin]
  | s :: ss => by
      simp [Stmt.trimAllComments, Stmt.AllWithin, Stmt.within_trimComments limit _ s,
        Stmt.allWithin_trimAllComments limit _ ss]

/-- Whether what follows the body of a conditional keeps to the limit does not depend on the ends
of its comments. -/
theorem Else.within_trimComments (limit blocks : Nat) :
    ∀ a : Else π, a.trimComments.Within limit blocks ↔ a.Within limit blocks
  | .absent => by simp [Else.trimComments, Else.Within]
  | .block body _ => by
      simp [Else.trimComments, Else.Within, Stmt.allWithin_trimAllComments limit _ body]
  | .elseIf _ body _ rest => by
      simp [Else.trimComments, Else.Within, Stmt.allWithin_trimAllComments limit _ body,
        Else.within_trimComments limit _ rest]

end

/-- A text whose end is trimmed has nothing left to trim there. -/
theorem Text.trimEnd_idem (drop : Char → Bool) (text : String) :
    trimEnd drop (trimEnd drop text) = trimEnd drop text := by
  rw [trimEnd, trimEnd, String.toList_ofList, trimEndChars_idem]

mutual

/-- A statement is laid out without the white space at the ends of its comments. -/
theorem Stmt.layout_trimComments (depth : Nat) :
    ∀ s : Stmt π, s.trimComments.layout depth = s.layout depth
  | .comment .. => by simp [Stmt.trimComments, Stmt.layout, Text.trimEnd_idem]
  | .blank _ | .assign .. | .run .. => by simp [Stmt.trimComments, Stmt.layout]
  | .cond _ body _ alternative _ => by
      simp [Stmt.trimComments, Stmt.layout, Stmt.layoutAll_trimAllComments _ body,
        Else.layout_trimComments _ alternative]

/-- Statements are laid out without the white space at the ends of their comments. -/
theorem Stmt.layoutAll_trimAllComments (depth : Nat) :
    ∀ ss : List (Stmt π),
      Stmt.layoutAll depth (Stmt.trimAllComments ss) = Stmt.layoutAll depth ss
  | [] => by simp [Stmt.trimAllComments, Stmt.layoutAll]
  | s :: ss => by
      simp [Stmt.trimAllComments, Stmt.layoutAll, Stmt.layout_trimComments _ s,
        Stmt.layoutAll_trimAllComments _ ss]

/-- What follows the body of a conditional is laid out without the white space at the ends of its
comments. -/
theorem Else.layout_trimComments (depth : Nat) :
    ∀ a : Else π, a.trimComments.layout depth = a.layout depth
  | .absent => by simp [Else.trimComments, Else.layout]
  | .block body _ => by
      simp [Else.trimComments, Else.layout, Stmt.layoutAll_trimAllComments _ body]
  | .elseIf _ body _ rest => by
      simp [Else.trimComments, Else.layout, Stmt.layoutAll_trimAllComments _ body,
        Else.layout_trimComments _ rest]

end

/-! ### Scripts -/

namespace Script

/-- Trees that agree up to places and the ends of comments have the same layout. -/
theorem layout_eq_of_erase_eq {s s' : Script Span} (h : s'.erase = s.trimComments.erase) :
    s'.layout = s.layout := by
  calc s'.layout = s'.erase.layout := (layout_map _ s').symm
    _ = s.trimComments.erase.layout := by rw [h]
    _ = s.trimComments.layout := layout_map _ _
    _ = s.layout := by
      rw [layout, layout, lines, lines, trimComments, Stmt.layoutAll_trimAllComments]

/-- Trees that agree up to places and the ends of comments are equally deep. -/
theorem within_iff_of_erase_eq {s s' : Script Span} (h : s'.erase = s.trimComments.erase)
    (limit : Nat) : s'.Within limit ↔ s.Within limit := by
  calc s'.Within limit ↔ s'.erase.Within limit := (Stmt.allWithin_mapAll _ limit 0 _).symm
    _ ↔ s.trimComments.erase.Within limit := by rw [h]
    _ ↔ s.trimComments.Within limit := Stmt.allWithin_mapAll _ limit 0 _
    _ ↔ s.Within limit := Stmt.allWithin_trimAllComments limit 0 _

/-- Every token of a source whose atoms are balanced can be written and scanned again. -/
theorem printable_ofSource {source : Source}
    (hatoms : ∀ t ∈ Token.ofSource source, t.kind = .atom → BalancedParens t.bytes) :
    ∀ t ∈ Token.ofSource source, t.Printable := by
  intro t ht heof
  exact ⟨spelling_of_mem_ofSource ht heof, hatoms t ht⟩

/-- The grammar derives a script from its own layout. -/
theorem Derives.reprints {tokens : List Token} {s : Script Span} (h : Derives tokens s)
    (hprintable : ∀ t ∈ tokens, t.Printable) :
    ∃ s' : Script Span, Derives (Token.ofSource (Utf8.encode s.layout)) s' ∧
      s'.erase = s.trimComments.erase := by
  rcases h with ⟨_, _, hstatements⟩
  have hreads := hstatements.reprints hprintable 0
  rcases hreads 0 [] [Token.endMark (Utf8.encode s.layout).length] trivial with
    ⟨_, ss, hss, herase⟩
  rw [List.append_nil, tokensFrom_nil] at hss
  exact ⟨⟨ss⟩, ⟨Token.endMark _, rfl, hss⟩, congrArg Script.mk herase⟩

/-- A script that parses and whose atoms are balanced is written such that the text parses
to the same tree, apart from places and the white space at the end of comments; and
writing the text again changes nothing. -/
theorem format_reads_back {source : Source} {script : Script Span}
    (hparse : parse source = .ok script)
    (hatoms : ∀ t ∈ Token.ofSource source, t.kind = .atom → BalancedParens t.bytes) :
    ∃ text script', format source = .ok text ∧ parse (Utf8.encode text) = .ok script' ∧
      script'.erase = script.trimComments.erase ∧ format (Utf8.encode text) = .ok text := by
  rcases read_eq_iff.mp (parse_eq_ok_iff.mp hparse) with ⟨hderives, hwithin⟩
  rcases hderives.reprints (printable_ofSource hatoms) with ⟨script', hderives', herase⟩
  have hwithin' := (within_iff_of_erase_eq herase maxNesting).mpr hwithin
  have hparse' : parse (Utf8.encode script.layout) = .ok script' :=
    parse_eq_ok_iff.mpr (read_eq_iff.mpr ⟨hderives', hwithin'⟩)
  refine ⟨script.layout, script', ?_, hparse', herase, ?_⟩
  · rw [format, hparse]
    rfl
  · rw [format, hparse', ← layout_eq_of_erase_eq herase]
    rfl

/-- A script with loose spacing, a call over two lines and white space after a comment. -/
def looseSample : Source :=
  Utf8.encode
    "if f( :a(b) ,\r\n \"\\\"\", ) \x7b\n  # note \t\r\n-1*2\n\x7d else\x7b\nlet x=- -1\n\x7d\n"

/-- The formatted sample is read back, and formatting it again changes nothing. -/
theorem format_reads_back_looseSample :
    (∃ t ∈ Token.ofSource looseSample, t.kind = .atom ∧ BalancedParens t.bytes) ∧
      ∃ script text script', parse looseSample = .ok script ∧ format looseSample = .ok text ∧
        parse (Utf8.encode text) = .ok script' ∧ script'.erase = script.trimComments.erase ∧
        format (Utf8.encode text) = .ok text := by
  have hatoms : ∀ t ∈ Token.ofSource looseSample, t.kind = .atom → BalancedParens t.bytes := by
    unfold BalancedParens
    decide +kernel
  have hatom : ∃ t ∈ Token.ofSource looseSample, t.kind = .atom := by decide +kernel
  have hproblems : (read looseSample).2 = [] := by decide +kernel
  have hparse := parse_eq_ok_iff.mpr (Prod.ext rfl hproblems)
  constructor
  · rcases hatom with ⟨t, ht, hkind⟩
    exact ⟨t, ht, hkind, hatoms t ht hkind⟩
  · rcases format_reads_back hparse hatoms with ⟨text, script', hformat⟩
    exact ⟨_, text, script', hparse, hformat⟩

end Script

end Shellward
