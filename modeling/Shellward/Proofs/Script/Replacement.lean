import Shellward.Proofs.Grammar.Literals
import Shellward.Proofs.Script.Erasing
import Shellward.Proofs.Script.Formatting
import Shellward.Proofs.Shell.Replacements

/-!
# Replacements in scripts

A script replaces a text by another one in the value of a variable, once or everywhere.  Both
texts are strings.  The shell script of such a call is that of another call too exactly if the
call is ambiguous.

Main results:

- Theorem `isContent_iff`: what may stand between double quotes.
- Theorem `Replacement.exists_writtenIn`: every replacement of such texts is written in some
  script.
- Theorem `compile_replacement_ambiguous_iff`: a replacement has the shell script of another
  one exactly if it is ambiguous.
-/

namespace Shellward

open Token

/-! ### What may stand between double quotes -/

/-- Characters between double quotes. -/
def Text.quoted (chars : List Char) : String :=
  String.ofList ('\x22' :: (chars ++ ['\x22']))

/-- Characters that may stand between the double quotes of a string. -/
def IsContent (chars : List Char) : Prop :=
  Token.Kind.string.Spells (Text.quoted chars)

/-- A quoted text is a quote, the characters and another quote. -/
theorem Utf8.encode_quoted (chars : List Char) :
    Utf8.encode (Text.quoted chars) =
      doubleQuote :: Utf8.encodeChars (chars ++ ['\x22']) := by
  rw [Utf8.encode, Text.quoted, String.toList_ofList]
  rfl

/-- Characters may stand between quotes exactly if the quote after them is the first that closes
the string. -/
theorem isContent_iff {chars : List Char} :
    IsContent chars ↔ ClosedString (Utf8.encodeChars (chars ++ ['\x22'])) := by
  constructor
  · rintro ⟨bytes, hspelling, htext⟩
    rcases hspelling.of_string rfl with ⟨body, rfl, hbody⟩
    have hquote : doubleQuote < 0x80 := by decide
    have hchars : Utf8.decodeChars body = chars ++ ['\x22'] := by
      have hlists := String.ofList_injective htext
      rw [Utf8.decode_ascii hquote] at hlists
      exact (List.cons.inj hlists).2
    have hclosed := closedString_transcribed (Utf8.transcribed_encode_decode body) hbody
    rw [Utf8.encode, Utf8.decode, String.toList_ofList, hchars] at hclosed
    exact hclosed
  · intro hclosed
    refine ⟨Utf8.encode (Text.quoted chars), ?_, Utf8.decode_encode _⟩
    rw [Utf8.encode_quoted]
    exact .string hclosed

/-- A character of a bare word neither closes a string nor escapes anything. -/
theorem closedString_wordChar {c : Char} (hc : Shell.isWordChar c = true) (bytes : Source) :
    ClosedString (String.utf8EncodeChar c ++ bytes) ↔ ClosedString bytes := by
  have hall : ∀ n < 128, Shell.isWordChar (Char.ofNat n) = true →
      UInt8.ofNat n ≠ 0x0a ∧ UInt8.ofNat n ≠ 0x0d ∧ UInt8.ofNat n ≠ doubleQuote ∧
        UInt8.ofNat n ≠ backslash := by
    decide +kernel
  by_cases hascii : c.toNat < 128
  · have htoNat := Utf8.toNat_ofNat_of_lt (Nat.lt_trans hascii (by decide))
    have hchar : String.utf8EncodeChar c = [UInt8.ofNat c.toNat] := by
      have hencode := Utf8.encodeChar_ascii (Utf8.lt_ascii_iff.mpr (htoNat ▸ hascii))
      rwa [htoNat, Char.ofNat_toNat] at hencode
    rw [← Char.ofNat_toNat c] at hc
    rcases hall c.toNat hascii hc with ⟨hline, hreturn, hquote, hback⟩
    rw [hchar, List.singleton_append]
    exact closedString_plain_iff (atLineEnd_of_ne hline hreturn bytes) hquote hback
  · exact closedString_high_iff (Utf8.highRun_encodeChar (Nat.le_of_not_lt hascii)).high

/-- Bare words may stand between double quotes, and the quote that closes a string is found by
reading it. -/
theorem contents_isContent : Shell.Contents IsContent where
  plain := by
    intro chars hplain
    have hwords := (Shell.isPlainWord_iff.mp hplain).2
    rw [isContent_iff]
    clear hplain
    induction chars with
    | nil => exact closedString_quote_iff.mpr rfl
    | cons c chars ih =>
        rw [List.forall_mem_cons] at hwords
        rw [List.cons_append, Utf8.encodeChars_cons, closedString_wordChar hwords.1]
        exact ih hwords.2
  closes := by
    intro f g u w hf hg h
    rw [isContent_iff] at hf hg
    have hbody : ∀ {f : List Char} (u : List Char),
        ClosedString (Utf8.encodeChars (f ++ ['\x22'])) →
          stringBody (Utf8.encodeChars (f ++ '\x22' :: u)) =
            (Utf8.encodeChars (f ++ ['\x22']), true) := by
      intro f u hf
      rw [← List.singleton_append, ← List.append_assoc, Utf8.encodeChars_append]
      exact stringBody_append hf _
    have hsame : Utf8.encodeChars (f ++ ['\x22']) = Utf8.encodeChars (g ++ ['\x22']) := by
      have hbodies := (hbody u hf).symm.trans ((congrArg _ (congrArg _ h)).trans (hbody w hg))
      exact (Prod.mk.inj hbodies).1
    have hchars : f ++ ['\x22'] = g ++ ['\x22'] := by
      have htexts : String.ofList (f ++ ['\x22']) = String.ofList (g ++ ['\x22']) := by
        rw [← Utf8.decode_encode (String.ofList (f ++ ['\x22'])),
          ← Utf8.decode_encode (String.ofList (g ++ ['\x22'])), Utf8.encode, Utf8.encode,
          String.toList_ofList, String.toList_ofList]
        exact congrArg Utf8.decode hsame
      exact String.ofList_injective htexts
    exact List.append_cancel_right hchars

/-! ### Trees without their places -/

section Inversion

variable {π κ : Type} {f : π → κ}

/-- What is moved to a literal is that literal at another place. -/
theorem Expr.exists_of_map_literal {e : Expr π} {kind : Literal} {text : String} {p : κ}
    (h : e.map f = .literal kind text p) : ∃ q, e = .literal kind text q := by
  cases e <;> simp_all [Expr.map]

/-- What is moved to a name is that name at another place. -/
theorem Expr.exists_of_map_name {e : Expr π} {text : String} {p : κ}
    (h : e.map f = .name text p) : ∃ q, e = .name text q := by
  cases e <;> simp_all [Expr.map]

/-- What is moved to a call is that call at another place, of arguments that are moved
to its own. -/
theorem Expr.exists_of_map_call {e : Expr π} {form : CallForm} {callee : String} {cp p : κ}
    {arguments : List (Expr κ)} (h : e.map f = .call form callee cp arguments p) :
    ∃ cq es q, e = .call form callee cq es q ∧ es.map (Expr.map f) = arguments := by
  cases e <;> simp_all [Expr.map, Expr.mapAll_eq_map]

/-- What is moved to an assignment is that assignment at another place, of a value that is moved
to its own. -/
theorem Stmt.exists_of_map_assign {s : Stmt π} {target : String} {tp p : κ} {value : Expr κ}
    (h : s.map f = .assign target tp value p) :
    ∃ tq e q, s = .assign target tq e q ∧ e.map f = value := by
  cases s <;> simp_all [Stmt.map]

end Inversion

/-! ### Scripts that replace texts -/

namespace Replacement

/-- The script that assigns a replacement in the value of a parameter. -/
def script (target parameter : String) (c : Replacement) : Script Span :=
  ⟨[.assign target default
    (.call .plain (Expansion.replace c.everywhere).name default
      [.name parameter default, .literal .string (Text.quoted c.find) default,
        .literal .string (Text.quoted c.substitute) default] default) default]⟩

/-- A source is read as the script that assigns a replacement. -/
def WrittenIn (target parameter : String) (c : Replacement) (source : Source) : Prop :=
  ∃ s, Script.parse source = .ok s ∧ s.erase = c.script target parameter

/-- The shell script for the script that assigns a replacement. -/
def text (target parameter : String) (c : Replacement) : String :=
  "#!/bin/sh\n\n" ++ Text.upper target ++ "=$\x7b" ++ Text.upper parameter ++
    String.ofList c.chars ++ "\x7d\n"

variable {target parameter : String} {c : Replacement} {source : Source}

/-- The script that assigns a replacement is expressed as one assignment of an expansion. -/
theorem toShell_script (target parameter : String) (c : Replacement) :
    (c.script target parameter).flatten.toShell =
      .ok ⟨[.assign (Text.upper target) (.replace (Text.upper parameter) c.everywhere
        (.text (Text.quoted c.find)) (.text (Text.quoted c.substitute)))]⟩ := by
  rcases c with ⟨everywhere, find, substitute⟩
  cases everywhere <;> rfl

/-- The assignment of a replacement is laid out on one line after the heading. -/
theorem layout_script (target parameter : String) (c : Replacement) (width : Nat) :
    Shell.Script.layout ⟨[.assign (Text.upper target) (.replace (Text.upper parameter) c.everywhere
        (.text (Text.quoted c.find)) (.text (Text.quoted c.substitute)))]⟩ width =
      c.text target parameter := by
  have hslashes : (if c.everywhere then "//" else "/").toList =
      if c.everywhere then ['/', '/'] else ['/'] := by
    cases c.everywhere <;> rfl
  have hfind : (Shell.bareText (Text.quoted c.find)).toList = Shell.wordChars c.find :=
    Shell.toList_bareText c.find
  have hsubstitute : (Shell.bareText (Text.quoted c.substitute)).toList =
      Shell.wordChars c.substitute :=
    Shell.toList_bareText c.substitute
  rw [← String.toList_inj]
  simp [Shell.Script.layout, Shell.Script.lines, Shell.Script.interpreter, Line.renderAll,
    Line.render, Line.blank, Shell.Stmt.layoutAll, Shell.Stmt.layout, Shell.Expr.layout,
    Text.replicate, text, chars, hslashes, hfind, hsubstitute]

/-- The shell script for a replacement. -/
theorem compile_of_writtenIn (h : c.WrittenIn target parameter source) (width : Nat) :
    compile source width = .ok (c.text target parameter) := by
  rcases h with ⟨s, hparse, herase⟩
  have hshell := toShell_script target parameter c
  rw [← herase, Script.erase, Script.flatten_map, Script.toShell_map] at hshell
  rw [compile, hparse]
  change s.flatten.compile width = _
  rw [Script.compile, Script.express]
  cases hs : s.flatten.toShell with
  | error problems =>
      rw [hs] at hshell
      contradiction
  | ok shell =>
      rw [hs] at hshell
      cases hshell
      exact congrArg Except.ok (layout_script target parameter c width)

/-- A script that is a replacement but for its places. -/
theorem exists_of_erase_eq {s : Script Span} (h : s.erase = c.script target parameter) :
    ∃ tp form callee cp vp fp rp p sp, s = ⟨[.assign target tp (.call form callee cp
      [.name parameter vp, .literal .string (Text.quoted c.find) fp,
        .literal .string (Text.quoted c.substitute) rp] p) sp]⟩ := by
  rcases s with ⟨ss⟩
  have hstatements : Stmt.mapAll (fun _ => default) ss = (c.script target parameter).statements :=
    congrArg Script.statements h
  rw [Stmt.mapAll_eq_map, script, List.map_eq_singleton_iff] at hstatements
  rcases hstatements with ⟨assignment, rfl, hassignment⟩
  rcases Stmt.exists_of_map_assign hassignment with ⟨tp, value, sp, rfl, hvalue⟩
  rcases Expr.exists_of_map_call hvalue with ⟨cp, arguments, p, rfl, harguments⟩
  simp only [List.map_eq_cons_iff, List.map_eq_nil_iff] at harguments
  rcases harguments with
    ⟨first, _, rfl, hfirst, second, _, rfl, hsecond, third, _, rfl, hthird, rfl⟩
  rcases Expr.exists_of_map_name hfirst with ⟨vp, rfl⟩
  rcases Expr.exists_of_map_literal hsecond with ⟨fp, rfl⟩
  rcases Expr.exists_of_map_literal hthird with ⟨rp, rfl⟩
  exact ⟨tp, _, _, cp, vp, fp, rp, p, sp, rfl⟩

/-- The names and the texts of a replacement that is written in a source are spelt as tokens
are. -/
theorem spells_of_writtenIn (h : c.WrittenIn target parameter source) :
    Kind.identifier.Spells target ∧ Kind.identifier.Spells parameter ∧ c.Holds IsContent := by
  rcases h with ⟨s, hparse, herase⟩
  rcases exists_of_erase_eq herase with ⟨tp, form, callee, cp, vp, fp, rp, p, sp, rfl⟩
  rcases Script.names_of_parse hparse with ⟨⟨htarget, hparameter, _⟩, _⟩
  have hspelled := Script.spelled_of_parse hparse
  refine ⟨htarget, hparameter, hspelled (.literal .string (Text.quoted c.find) fp) ?_,
    hspelled (.literal .string (Text.quoted c.substitute) rp) ?_⟩
  · simp [Script.expressions, Stmt.allExpressions, Stmt.expressions, Expr.parts, Expr.allParts]
  · simp [Script.expressions, Stmt.allExpressions, Stmt.expressions, Expr.parts, Expr.allParts]

/-- The callee of a replacement is a name. -/
theorem spells_callee (everywhere : Bool) :
    Kind.identifier.Spells (Expansion.replace everywhere).name := by
  cases everywhere with
  | true =>
      have hbytes : Utf8.encode "replace_all" =
          [0x72, 0x65, 0x70, 0x6c, 0x61, 0x63, 0x65, 0x5f, 0x61, 0x6c, 0x6c] := by
        decide
      exact Kind.spells_identifier hbytes (by decide) (by decide) (by decide)
  | false =>
      have hbytes : Utf8.encode "replace" = [0x72, 0x65, 0x70, 0x6c, 0x61, 0x63, 0x65] := by
        decide
      exact Kind.spells_identifier hbytes (by decide) (by decide) (by decide)

/-- The tokens of an assignment of a replacement. -/
def tokens (target callee parameter find substitute : Source) : List Token :=
  [⟨.letWord, default, Utf8.encode "let"⟩, ⟨.identifier, default, target⟩,
    ⟨.assign, default, Utf8.encode "="⟩, ⟨.identifier, default, callee⟩,
    ⟨.leftParen, default, Utf8.encode "("⟩, ⟨.identifier, default, parameter⟩,
    ⟨.comma, default, Utf8.encode ","⟩, ⟨.string, default, find⟩,
    ⟨.comma, default, Utf8.encode ","⟩, ⟨.string, default, substitute⟩,
    ⟨.rightParen, default, Utf8.encode ")"⟩, ⟨.eof, default, []⟩]

/-- The tokens of an assignment of a replacement are derived as one statement. -/
theorem derives_tokens (target callee parameter find substitute : Source) :
    Script.Derives (tokens target callee parameter find substitute)
      ⟨[.assign (Utf8.decode target) default (.call .plain (Utf8.decode callee) default
        [.name (Utf8.decode parameter) default, .literal .string (Utf8.decode find) default,
          .literal .string (Utf8.decode substitute) default] (Span.merge default default))
        (Span.merge default (Span.merge default default))]⟩ := by
  have hname : ∀ rest, Expr.Derives .equality (⟨.identifier, default, parameter⟩ :: rest)
      (.name (Utf8.decode parameter) default) rest :=
    fun rest => (Expr.Derives.name rfl).loosen (by decide)
  have hstring : ∀ text rest, Expr.Derives .equality (⟨.string, default, text⟩ :: rest)
      (.literal .string (Utf8.decode text) default) rest :=
    fun text rest => (Expr.Derives.literal .string rfl).loosen (by decide)
  have hvalue : Expr.Derives .call
      ((tokens target callee parameter find substitute).drop 3)
      (.call .plain (Utf8.decode callee) default
        [.name (Utf8.decode parameter) default, .literal .string (Utf8.decode find) default,
          .literal .string (Utf8.decode substitute) default] (Span.merge default default))
      [⟨.eof, default, []⟩] := by
    have hlast : Expr.DerivesArguments ((tokens target callee parameter find substitute).drop 9)
        [.literal .string (Utf8.decode substitute) default]
        ⟨.rightParen, default, Utf8.encode ")"⟩ [⟨.eof, default, []⟩] :=
      .last (hstring substitute _) .none rfl
    have hwords : Expr.DerivesArguments ((tokens target callee parameter find substitute).drop 7)
        [.literal .string (Utf8.decode find) default,
          .literal .string (Utf8.decode substitute) default]
        ⟨.rightParen, default, Utf8.encode ")"⟩ [⟨.eof, default, []⟩] :=
      .more (hstring find _) .none rfl .none hlast
    exact .call rfl rfl .none (.more (hname _) .none rfl .none hwords)
  exact ⟨_, rfl, .cons (.assign rfl rfl rfl (hvalue.loosen (by decide)) (.last rfl)) .nil⟩

/-- The tokens of the assignment can be written and scanned again if the texts in it are spelt as
they should be. -/
theorem printable_tokens {target callee parameter find substitute : Source}
    (htarget : Spelling .identifier target) (hcallee : Spelling .identifier callee)
    (hparameter : Spelling .identifier parameter) (hfind : Spelling .string find)
    (hsubstitute : Spelling .string substitute) :
    ∀ t ∈ tokens target callee parameter find substitute, t.Printable := by
  have hlet : Spelling .letWord (Utf8.encode "let") := by
    have hbytes : Utf8.encode "let" = [0x6c, 0x65, 0x74] := by decide
    have hkind : wordKind [0x6c, 0x65, 0x74] = .letWord := by decide
    rw [hbytes, ← hkind]
    exact .word (by decide) (List.all_eq_true.mp (by decide))
  have hprintable : ∀ {kind : Kind} {bytes : Source}, Spelling kind bytes → kind ≠ .atom →
      Token.Printable ⟨kind, default, bytes⟩ :=
    fun hspelling hatom _ => ⟨hspelling, fun hkind => absurd hkind hatom⟩
  have hsymbol : ∀ {kind : Kind} {bytes : Source}, (bytes, kind) ∈ symbols → kind ≠ .atom →
      Token.Printable ⟨kind, default, bytes⟩ :=
    fun hmem => hprintable (.symbol hmem)
  simp only [tokens, List.forall_mem_cons]
  exact ⟨hprintable hlet (by decide), hprintable htarget (by decide),
    hsymbol (by decide) (by decide), hprintable hcallee (by decide),
    hsymbol (by decide) (by decide), hprintable hparameter (by decide),
    hsymbol (by decide) (by decide), hprintable hfind (by decide),
    hsymbol (by decide) (by decide), hprintable hsubstitute (by decide),
    hsymbol (by decide) (by decide), fun heof => absurd rfl heof, List.forall_mem_nil _⟩

/-- A replacement of texts that may stand between double quotes is written in some source. -/
theorem exists_writtenIn (htarget : Kind.identifier.Spells target)
    (hparameter : Kind.identifier.Spells parameter) (hc : c.Holds IsContent) :
    ∃ source, c.WrittenIn target parameter source := by
  rcases htarget with ⟨targetBytes, htarget, rfl⟩
  rcases hparameter with ⟨parameterBytes, hparameter, rfl⟩
  rcases hc with ⟨⟨find, hfind, hfindText⟩, ⟨substitute, hsubstitute, hsubstituteText⟩⟩
  rcases spells_callee c.everywhere with ⟨callee, hcallee, hcalleeText⟩
  have hderives := derives_tokens targetBytes callee parameterBytes find substitute
  have hprintable := printable_tokens htarget hcallee hparameter hfind hsubstitute
  rcases hderives.reprints hprintable with ⟨s, hs, herase⟩
  have hwithin : s.Within Script.maxNesting := by
    rw [Script.within_iff_of_erase_eq herase]
    simp [Script.Within, Stmt.AllWithin, Stmt.Within, Script.maxNesting, Expr.need, Expr.needAll]
  refine ⟨_, s, Script.parse_eq_ok_iff.mpr (Script.read_eq_iff.mpr ⟨hs, hwithin⟩), ?_⟩
  rw [herase, script, ← hfindText, ← hsubstituteText, ← hcalleeText]
  rfl

/-- The shell scripts of two replacements tell what stands after the name of the parameter. -/
theorem text_eq_iff {c' : Replacement} :
    c'.text target parameter = c.text target parameter ↔ c'.chars = c.chars := by
  simp [text, String.append_assoc, ← String.toList_inj]

end Replacement

/-- A script that assigns a replacement is compiled, and another replacement has the same shell
script exactly if the replacement is ambiguous. -/
theorem compile_replacement_ambiguous_iff {target parameter : String} {c : Replacement}
    {source : Source} (h : c.WrittenIn target parameter source) (width : Nat) :
    compile source width = .ok (c.text target parameter) ∧
      ((∃ c' source', c' ≠ c ∧ c'.WrittenIn target parameter source' ∧
        compile source' width = compile source width) ↔ c.Ambiguous) := by
  have hcompile := Replacement.compile_of_writtenIn h width
  rcases Replacement.spells_of_writtenIn h with ⟨htarget, hparameter, hholds⟩
  refine ⟨hcompile, ?_, ?_⟩
  · rintro ⟨c', source', hne, hwritten, hsame⟩
    have hholds' := (Replacement.spells_of_writtenIn hwritten).2.2
    rw [hcompile, Replacement.compile_of_writtenIn hwritten width] at hsame
    have hchars := Replacement.text_eq_iff.mp (Except.ok.inj hsame)
    exact Replacement.ambiguous_of_chars_eq contents_isContent hholds hholds' hne hchars
  · intro hambiguous
    rcases Replacement.exists_twin contents_isContent hholds hambiguous with
      ⟨c', hne, hholds', hchars⟩
    rcases Replacement.exists_writtenIn htarget hparameter hholds' with ⟨source', hwritten⟩
    refine ⟨c', source', hne, hwritten, ?_⟩
    rw [hcompile, Replacement.compile_of_writtenIn hwritten width,
      Replacement.text_eq_iff.mpr hchars]

/-- A replacement of a text that begins with a slash. -/
def slashReplacement : Replacement :=
  ⟨false, ['/', 'a'], ['b']⟩

/-- A script that assigns it. -/
def slashSample : Source :=
  Utf8.encode "let x = replace(x, \"/a\", \"b\")\n"

/-- Replacing `/a` once is written like replacing `a` everywhere. -/
theorem compile_replacement_ambiguous_iff_slash :
    slashReplacement.WrittenIn "x" "x" slashSample ∧
      compile slashSample 4 = .ok "#!/bin/sh\n\nX=$\x7bX//a/b\x7d\n" ∧
      ∃ c' source', c' ≠ slashReplacement ∧ c'.WrittenIn "x" "x" source' ∧
        compile source' 4 = compile slashSample 4 := by
  have hwritten : slashReplacement.WrittenIn "x" "x" slashSample := by
    exact ⟨(Script.read slashSample).1, by decide +kernel, by decide +kernel⟩
  have htext : slashReplacement.text "x" "x" = "#!/bin/sh\n\nX=$\x7bX//a/b\x7d\n" := by
    decide
  rcases compile_replacement_ambiguous_iff hwritten 4 with ⟨hcompile, hambiguous⟩
  exact ⟨hwritten, htext ▸ hcompile, hambiguous.mpr (by decide)⟩

end Shellward
