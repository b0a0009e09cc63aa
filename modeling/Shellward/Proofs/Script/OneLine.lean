import Shellward.Proofs.Grammar.Remarks
import Shellward.Proofs.Script.Visibility
import Shellward.Proofs.Token.Lines

/-!
# Texts that stay on one line

No token but a line end holds a line feed.  So none of the texts in a script holds one, and
neither does any line of its shell script.

Main results:

- Theorem `Token.Spelling.lineFeed_notMem`: only line ends and invalid tokens hold line feeds.
- Theorem `Expr.Expressed.oneLine`: an expression is written on one line.
- Theorem `Script.oneLine_lines`: so is every line of the shell script of a script.
-/

namespace Shellward

variable {π : Type}

/-! ### Texts -/

namespace Text

/-- A text has no line feed. -/
def OneLine (text : String) : Prop :=
  '\n' ∉ text.toList

instance decidableOneLine (text : String) : Decidable (OneLine text) :=
  inferInstanceAs (Decidable ('\n' ∉ text.toList))

/-- Two texts are on one line together exactly if both have no line feed. -/
@[simp]
theorem oneLine_append {text after : String} :
    OneLine (text ++ after) ↔ OneLine text ∧ OneLine after := by
  simp [OneLine, String.toList_append]

/-- A text between two others. -/
theorem OneLine.between {before text after : String} (h : OneLine text)
    (hbefore : OneLine before) (hafter : OneLine after) : OneLine (before ++ text ++ after) :=
  oneLine_append.mpr ⟨oneLine_append.mpr ⟨hbefore, h⟩, hafter⟩

/-- A text has no line feed once it is put in upper case. -/
abbrev OneLineUpper (text : String) : Prop :=
  OneLine (upper text)

/-- A text whose characters are in another text is on one line if that one is. -/
theorem OneLine.of_subset {text : String} (h : OneLine text) {chars : List Char}
    (hsubset : chars ⊆ text.toList) : OneLine (String.ofList chars) := by
  intro hmem
  rw [String.toList_ofList] at hmem
  exact h (hsubset hmem)

/-- A text on one line stays so when its start is trimmed. -/
theorem OneLine.trimStart {text : String} (h : OneLine text) (drop : Char → Bool) :
    OneLine (trimStart drop text) :=
  h.of_subset (List.dropWhile_suffix drop).subset

/-- A text on one line stays so when it is trimmed. -/
theorem OneLine.trim {text : String} (h : OneLine text) (drop : Char → Bool) :
    OneLine (trim drop text) := by
  apply (h.trimStart drop).of_subset
  rw [trimEndChars]
  intro c hc
  exact List.mem_reverse.mp ((List.dropWhile_suffix drop).subset (List.mem_reverse.mp hc))

/-- Without its quotes, a text stays on one line. -/
theorem OneLine.bareText {text : String} (h : OneLine text) : OneLine (Shell.bareText text) := by
  unfold Shell.bareText
  split
  next inner hinner =>
    split
    next =>
      unfold Shell.unquote? at hinner
      split at hinner
      next rest htext =>
        split at hinner
        next =>
          rw [← Option.some.inj hinner]
          apply h.of_subset
          rw [htext]
          exact fun c hc => List.mem_cons_of_mem _ (List.mem_of_mem_dropLast hc)
        next => contradiction
      next => contradiction
    next => exact h
  next => exact h

end Text

open Text (OneLine)

/-! ### Tokens -/

/-- A line feed in a text comes from one in its bytes. -/
theorem Utf8.lineFeed_mem_of_decode {bytes : Source} (h : '\n' ∈ (decode bytes).toList) :
    0x0a ∈ bytes := by
  apply (transcribed_encode_decode bytes).mem_of_ascii (by decide)
  rw [encode, List.mem_flatMap]
  exact ⟨'\n', h, by decide⟩

/-- Bytes of a class without the line feed. -/
theorem Token.lineFeed_notMem {p : UInt8 → Bool} (hp : p 0x0a = false) {bytes : Source}
    (h : ∀ b ∈ bytes, p b = true) : 0x0a ∉ bytes := by
  intro hmem
  have hline := h _ hmem
  rw [hp] at hline
  contradiction

/-- A token that holds a line feed is a line end or invalid. -/
theorem Token.Spelling.lineFeed_notMem {kind : Kind} {bytes : Source} (h : Spelling kind bytes)
    (hline : kind ≠ .newLine) (hinvalid : kind ≠ .invalid) : 0x0a ∉ bytes := by
  have hsymbols : (symbols.all fun s => s.2 == .newLine || !s.1.contains 0x0a) = true := by
    decide
  cases h with
  | symbol hmem => simpa [hline] using List.all_eq_true.mp hsymbols _ hmem
  | @word b body hletter hbody =>
      have hword : isWordByte b = true := by simp [isWordByte, isAlphanumeric, hletter]
      exact Token.lineFeed_notMem rfl (List.forall_mem_cons.mpr ⟨hword, hbody⟩)
  | number hdigit hbody =>
      exact Token.lineFeed_notMem rfl (List.forall_mem_cons.mpr ⟨hdigit, hbody⟩)
  | pattern hbody =>
      have hquote : 0x0a ≠ singleQuote := by decide
      simp [hquote, Token.lineFeed_notMem rfl hbody]
  | @string body hbody =>
      -- The body is a string of what stands before the end of its line.
      have hwithin : body <+: takeUntil atLineEnd body := by
        have hline := stringBody_isPrefix (takeUntil atLineEnd body)
        rwa [stringBody_takeUntil, hbody] at hline
      have hquote : 0x0a ≠ doubleQuote := by decide
      rw [List.mem_cons, not_or]
      exact ⟨hquote, fun hmem => lineFeed_notMem_takeUntil body (hwithin.subset hmem)⟩
  | atom _ hbody _ => simp [Token.lineFeed_notMem rfl hbody]
  | @comment body hbody =>
      have hrest := lineFeed_notMem_takeUntil body
      rw [hbody] at hrest
      simp [hrest]
  | invalid => exact absurd rfl hinvalid

/-- The text of a valid token other than a line end is on one line. -/
theorem Token.Kind.Spells.oneLine {kind : Token.Kind} {text : String} (h : kind.Spells text)
    (hline : kind ≠ .newLine) (hinvalid : kind ≠ .invalid) : OneLine text := by
  rcases h with ⟨bytes, hspelling, rfl⟩
  exact fun hmem => hspelling.lineFeed_notMem hline hinvalid (Utf8.lineFeed_mem_of_decode hmem)

/-- The comments and blank lines of a source are texts on one line. -/
theorem Source.oneLine_remarks (source : Source) : ∀ text ∈ source.remarks, OneLine text := by
  intro text htext
  rcases Token.mem_remarks htext with rfl | ⟨t, ht, hkind, rfl⟩
  · decide
  · rcases List.mem_append.mp ht with ht | ht
    · have hspells : Token.Kind.comment.Spells t.lexeme :=
        ⟨t.bytes, hkind ▸ Token.spelling_of_mem_tokensFrom ht, rfl⟩
      exact hspells.oneLine (by decide) (by decide)
    · rw [List.mem_singleton.mp ht] at hkind
      simp [Token.endMark] at hkind

/-- The variables of a shell script have names on one line. -/
theorem Source.Expands.oneLine {source : Source} {name : String} (h : source.Expands name) :
    OneLine name := by
  cases h with
  | temporary number =>
      intro hmem
      have hdigits : '\n' ∉ Nat.toDigits 10 number := fun hmem =>
        absurd (Nat.isDigit_of_mem_toDigits (by decide) (by decide) hmem) (by decide)
      rw [Flatten.toList_temporary] at hmem
      simp [hdigits] at hmem
  | name hname hupper =>
      rw [Text.isUpperName] at hupper
      split at hupper
      next => exact absurd hupper Bool.false_ne_true
      next c rest htext =>
        intro hmem
        rw [htext] at hmem
        rw [Bool.and_eq_true, List.all_eq_true] at hupper
        rcases List.mem_cons.mp hmem with rfl | hmem
        · exact absurd hupper.1 (by decide)
        · exact absurd (hupper.2 _ hmem) (by decide)

/-! ### Expressions -/

namespace Shell.Expr

/-- An expression is written on one line, in a test or elsewhere. -/
def OneLine (e : Expr) : Prop :=
  ∀ inTest, Text.OneLine (e.layout inTest)

/-- Arguments on one line are laid out on one line. -/
theorem oneLine_layoutArguments {arguments : List Expr} (h : ∀ e ∈ arguments, e.OneLine) :
    Text.OneLine (layoutArguments arguments) := by
  induction arguments with
  | nil => exact List.not_mem_nil
  | cons e es ih =>
      rcases List.forall_mem_cons.mp h with ⟨he, hes⟩
      simp only [layoutArguments, Text.oneLine_append]
      exact ⟨⟨by decide, he false⟩, ih hes⟩

/-- A call of a command with arguments on one line is on one line. -/
theorem oneLine_ofCall {callee : String} (hcallee : Text.OneLine callee) {arguments : List Expr}
    (h : ∀ e ∈ arguments, e.OneLine) : (ofCall callee arguments).OneLine := by
  have hbuiltins : ∀ b ∈ CommandBuiltin.all, Text.OneLine b.command := by decide
  have harguments := oneLine_layoutArguments h
  unfold ofCall
  split
  next b hb =>
    intro inTest
    have hcommand := hbuiltins b (List.mem_of_find?_eq_some hb)
    have hredirects : Text.OneLine (layoutRedirects (if b.toStderr then [.toStderr] else [])) := by
      split <;> decide
    simp only [layout, Text.oneLine_append]
    exact ⟨⟨hcommand, harguments⟩, hredirects⟩
  next =>
    intro inTest
    simp only [layout, Text.oneLine_append]
    exact ⟨⟨hcallee, harguments⟩, by decide⟩

/-- A call on one line is on one line in each form. -/
theorem OneLine.form {call : Expr} (h : call.OneLine) (form : CallForm) :
    (form.apply call).OneLine := by
  cases form with
  | plain => exact h
  | nested depth =>
      intro inTest
      rw [CallForm.apply, layout]
      exact (h false).between (by decide) (by decide)

theorem OneLine.test {inner : Expr} (h : inner.OneLine) : (test inner).OneLine := by
  intro inTest
  rw [layout]
  exact (h true).between (by decide) (by decide)

/-- An expression on one line stays so in what it is put into. -/
theorem OneLine.wrapping {inner : Expr} (h : inner.OneLine) (wrapping : Wrapping) :
    (wrapping.apply inner).OneLine := by
  cases wrapping with
  | test => exact h.test
  | arithmetic =>
      intro inTest
      rw [Wrapping.apply, layout]
      exact (h false).between (by decide) (by decide)
  | bare => exact h

/-- An operation on operands that are on one line is on one line. -/
theorem OneLine.binary {left right : Expr} (hleft : left.OneLine) (hright : right.OneLine)
    {operator : String} (h : Text.OneLine operator) : (binary operator left right).OneLine := by
  intro inTest
  simp only [layout, Text.oneLine_append]
  exact ⟨⟨⟨⟨hleft inTest, by decide⟩, h⟩, by decide⟩, hright inTest⟩

theorem OneLine.group {inner : Expr} (h : inner.OneLine) : (group inner).OneLine := by
  intro inTest
  rw [layout]
  split
  · exact (h inTest).between (by decide) (by decide)
  · exact (h inTest).between (by decide) (by decide)

/-- An expansion of a variable is written on one line if its name and its words are. -/
theorem oneLine_of_takes {name : String} {x : Expansion} {words : List Expr} {expansion : Expr}
    (h : x.Takes name words expansion) (hname : Text.OneLine name)
    (hwords : ∀ e ∈ words, e.OneLine) : expansion.OneLine := by
  intro inTest
  cases h with
  | length =>
      rw [layout]
      exact hname.between (by decide) (by decide)
  | replace everywhere pattern replacement =>
      have hmark : Text.OneLine (if everywhere then "//" else "/") := by cases everywhere <;> decide
      have hpattern := hwords pattern (by simp) false
      have hreplacement := hwords replacement (by simp) false
      simp only [layout, Text.oneLine_append]
      exact ⟨⟨⟨⟨⟨⟨by decide, hname⟩, hmark⟩, hpattern⟩, by decide⟩, hreplacement⟩, by decide⟩
  | remove side pattern =>
      have hmark : Text.OneLine (removalMark side) := by cases side <;> decide
      simp only [layout, Text.oneLine_append]
      exact ⟨⟨⟨⟨by decide, hname⟩, hmark⟩, hwords pattern (by simp) false⟩, by decide⟩

/-- A test without its brackets is on one line if the test is. -/
theorem OneLine.unbracketed {e : Expr} (h : e.OneLine) :
    Text.OneLine (e.unbracketed.layout true) := by
  cases e with
  | test inner =>
      have hinner := h true
      simp only [layout, Text.oneLine_append] at hinner
      exact hinner.1.2
  | text | value | command | binary | group | arithmetic | substitution | length | replace
  | remove => exact h true

end Shell.Expr

/-- The text of a literal in the shell is on one line. -/
theorem Literal.oneLine_shellText {kind : Literal} {text : String} (h : kind.symbol.Spells text) :
    OneLine (kind.shellText text) := by
  have htext : OneLine text := h.oneLine (by cases kind <;> decide) (by cases kind <;> decide)
  cases kind with
  | string | number => exact htext
  | pattern => exact htext.trim _
  | atom =>
      rw [shellText]
      exact (htext.trimStart _).between (by decide) (by decide)

/-- Operators are spelt on one line in every context. -/
theorem Context.oneLine_spelling (context : Context) (op : Operator) :
    OneLine (context.spelling op) := by
  cases context <;> cases op <;> decide

namespace Expr

/-- An expression of a script is written on one line. -/
theorem Expressed.oneLine {context : Context} {e : Expr π} {shell : Shell.Expr}
    (h : Expressed context e shell) (hnames : e.NamesIn Text.OneLineUpper)
    (hspelled : ∀ part ∈ e.parts, part.Spelled) : shell.OneLine := by
  induction h with
  | literal kind text p =>
      have hliteral : (Expr.literal kind text p).Spelled := hspelled _ (mem_parts_self _)
      intro inTest
      rw [Shell.Expr.layout]
      exact (Literal.oneLine_shellText hliteral).bareText
  | @name context text p =>
      intro inTest
      cases context.quotes with
      | true =>
          rw [Shell.Expr.layout]
          exact hnames.between (by decide) (by decide)
      | false =>
          rw [Shell.Expr.layout, Text.oneLine_append]
          exact ⟨by decide, hnames⟩
  | @command context form callee cp p arguments shell hcallee harguments ih =>
      rcases List.forall_mem_cons.mp hspelled with ⟨hname, hparts⟩
      have hcall : OneLine callee := Token.Kind.Spells.oneLine hname (by decide) (by decide)
      refine (Shell.Expr.oneLine_ofCall hcall ?_).form form
      rw [List.forall_mem_map]
      intro e he
      exact ih e he (namesInAll_iff.mp hnames e he)
        fun part hpart => hparts part (mem_allParts.mpr ⟨e, he, hpart⟩)
  | @expansion context form callee text cp tp p words shell x expansion hcallee hforms htakes
      hwords ih =>
      rcases List.forall_mem_cons.mp hspelled with ⟨_, hparts⟩
      refine (Shell.Expr.oneLine_of_takes htakes hnames.1 ?_).form form
      rw [List.forall_mem_map]
      intro e he
      exact ih e he (namesInAll_iff.mp hnames.2 e he)
        fun part hpart => hparts part (mem_allParts.mpr ⟨e, List.mem_cons_of_mem _ he, hpart⟩)
  | @binary context op left right p l r hleft hright ihleft ihright =>
      rcases List.forall_mem_append.mp (List.forall_mem_cons.mp hspelled).2 with ⟨hl, hr⟩
      have hoperator := (context.inside op.isArithmetic).oneLine_spelling op
      exact ((ihleft hnames.1 hl).binary (ihright hnames.2 hr) hoperator).wrapping _
  | group hinner ih => exact (ih hnames (List.forall_mem_cons.mp hspelled).2).group.wrapping _
  | number text q p =>
      have hnumber : Token.Kind.number.Spells text :=
        (List.forall_mem_cons.mp (List.forall_mem_cons.mp hspelled).2).1
      intro inTest
      rw [Shell.Expr.layout]
      apply Text.OneLine.bareText
      exact Text.oneLine_append.mpr ⟨by decide, hnumber.oneLine (by decide) (by decide)⟩
  | negate hnumber hinner ih =>
      have hbody := ih hnames (List.forall_mem_cons.mp hspelled).2
      have hzero : (Shell.Expr.text "0").OneLine := by
        intro inTest
        rw [Shell.Expr.layout]
        decide
      exact (hzero.binary hbody (by decide)).wrapping _

end Expr

/-! ### Statements -/

/-- Lines have no line feeds. -/
abbrev Line.AllOneLine (lines : List Line) : Prop :=
  ∀ line ∈ lines, OneLine line.text

/-- The lines of a body have no line feeds, with or without a command that does nothing. -/
theorem Line.oneLine_bodyLines {lines : List Line} (h : AllOneLine lines) (depth : Nat)
    (body : List Shell.Stmt) : AllOneLine (Shell.bodyLines depth body lines) := by
  have hcolon : OneLine Shell.noCommand := by decide
  rw [Shell.bodyLines]
  split
  · exact h
  · exact List.forall_mem_append.mpr ⟨h, List.forall_mem_singleton.mpr hcolon⟩

/-- The lines of a branch and of what follows it. -/
theorem Line.oneLine_branch {test : Expr π} (hproblems : test.testToShell.problems = [])
    (hnames : test.NamesIn Text.OneLineUpper) (hspelled : ∀ part ∈ test.parts, part.Spelled)
    {keyword : String} (hkeyword : OneLine keyword) {depth : Nat} {body : List Shell.Stmt}
    {lines lines' : List Line} (hbody : AllOneLine lines) (hrest : AllOneLine lines') :
    AllOneLine
      (⟨depth, keyword ++ (Shell.Expr.test test.testToShell.value).layout false ++ "; then"⟩ ::
        Shell.bodyLines (depth + 1) body lines ++ lines') := by
  rw [Expr.problems_testToShell] at hproblems
  have hcondition := (Expr.expressed_of_problems hproblems).oneLine hnames hspelled
  have htest : OneLine ((Shell.Expr.test test.testToShell.value).layout false) := by
    rw [Expr.value_testToShell, Shell.Expr.layout]
    exact hcondition.unbracketed.between (by decide) (by decide)
  rw [AllOneLine, List.cons_append, List.forall_mem_cons, List.forall_mem_append]
  exact ⟨htest.between hkeyword (by decide), oneLine_bodyLines hbody _ _, hrest⟩

mutual

/-- The lines of a statement have no line feeds if its texts have none. -/
theorem Stmt.oneLine_toShell : ∀ (s : Stmt π) (depth : Nat), s.toShell.problems = [] →
    s.NamesIn Text.OneLineUpper → (∀ e ∈ s.expressions, e.Spelled) →
    (∀ text ∈ s.parts.filterMap Stmt.remark?, OneLine text) →
      Line.AllOneLine (s.toShell.value.layout depth)
  | .comment text _, depth, _, _, _, hremarks => by
      rw [Stmt.toShell]
      exact List.forall_mem_singleton.mpr (hremarks text List.mem_cons_self)
  | .blank _, depth, _, _, _, _ => by
      rw [Stmt.toShell]
      exact List.forall_mem_singleton.mpr List.not_mem_nil
  | .assign target _ value _, depth, hproblems, hnames, hspelled, _ => by
      rw [Stmt.toShell] at hproblems ⊢
      simp only [Checked.problems_bind, Checked.problems_pure, List.append_nil] at hproblems
      have hvalue := (Expr.expressed_of_problems hproblems).oneLine hnames.2 hspelled
      have htarget : OneLine (Text.upper target ++ "=") :=
        Text.oneLine_append.mpr ⟨hnames.1, by decide⟩
      exact List.forall_mem_singleton.mpr (Text.oneLine_append.mpr ⟨htarget, hvalue false⟩)
  | .run value _, depth, hproblems, hnames, hspelled, _ => by
      rw [Stmt.toShell] at hproblems ⊢
      cases hcallee : value.expansionName? with
      | some callee => simp [hcallee, Checked.report] at hproblems
      | none =>
          simp only [hcallee, Checked.problems_bind, Checked.problems_pure, List.append_nil]
            at hproblems
          have hvalue := (Expr.expressed_of_problems hproblems).oneLine hnames hspelled
          exact List.forall_mem_singleton.mpr (hvalue false)
  | .cond test body _ alternative _, depth, hproblems, hnames, hspelled, hremarks => by
      rw [Stmt.toShell] at hproblems ⊢
      simp only [Checked.problems_bind, Checked.problems_pure, List.append_nil,
        List.append_eq_nil_iff] at hproblems
      simp only [Stmt.expressions, List.forall_mem_append] at hspelled
      rw [Stmt.parts, List.filterMap_cons_none rfl, List.filterMap_append,
        List.forall_mem_append] at hremarks
      exact Line.oneLine_branch hproblems.1 hnames.1 hspelled.1 (by decide)
        (Stmt.oneLine_allToShell body (depth + 1) hproblems.2.1 hnames.2.1 hspelled.2.1 hremarks.1)
        (Else.oneLine_toShell alternative depth hproblems.2.2 hnames.2.2 hspelled.2.2 hremarks.2)

/-- The lines of several statements have no line feeds. -/
theorem Stmt.oneLine_allToShell : ∀ (ss : List (Stmt π)) (depth : Nat),
    (Stmt.allToShell ss).problems = [] → Stmt.NamesInAll Text.OneLineUpper ss →
    (∀ e ∈ Stmt.allExpressions ss, e.Spelled) →
    (∀ text ∈ (Stmt.allParts ss).filterMap Stmt.remark?, OneLine text) →
      Line.AllOneLine (Shell.Stmt.layoutAll depth (Stmt.allToShell ss).value)
  | [], _, _, _, _, _ => by
      rw [Stmt.allToShell]
      exact List.forall_mem_nil _
  | s :: ss, depth, hproblems, hnames, hspelled, hremarks => by
      rw [Stmt.allToShell] at hproblems ⊢
      simp only [Checked.problems_bind, Checked.problems_pure, List.append_nil,
        List.append_eq_nil_iff] at hproblems
      rw [Stmt.allExpressions, List.forall_mem_append] at hspelled
      rw [Stmt.allParts, List.filterMap_append, List.forall_mem_append] at hremarks
      exact List.forall_mem_append.mpr
        ⟨Stmt.oneLine_toShell s depth hproblems.1 hnames.1 hspelled.1 hremarks.1,
          Stmt.oneLine_allToShell ss depth hproblems.2 hnames.2 hspelled.2 hremarks.2⟩

/-- The lines of what follows the body of a conditional have no line feeds. -/
theorem Else.oneLine_toShell : ∀ (a : Else π) (depth : Nat), a.toShell.problems = [] →
    a.NamesIn Text.OneLineUpper → (∀ e ∈ a.expressions, e.Spelled) →
    (∀ text ∈ a.parts.filterMap Stmt.remark?, OneLine text) →
      Line.AllOneLine (a.toShell.value.layout depth)
  | .absent, _, _, _, _, _ => by
      have hend : OneLine "fi" := by decide
      rw [Else.toShell]
      exact List.forall_mem_singleton.mpr hend
  | .block body _, depth, hproblems, hnames, hspelled, hremarks => by
      have helse : OneLine "else" := by decide
      have hend : OneLine "fi" := by decide
      rw [Else.toShell] at hproblems ⊢
      simp only [Checked.problems_bind, Checked.problems_pure, List.append_nil] at hproblems
      have hbody := Stmt.oneLine_allToShell body (depth + 1) hproblems hnames hspelled hremarks
      exact List.forall_mem_cons.mpr ⟨helse, List.forall_mem_append.mpr
        ⟨Line.oneLine_bodyLines hbody _ _, List.forall_mem_singleton.mpr hend⟩⟩
  | .elseIf test body _ rest, depth, hproblems, hnames, hspelled, hremarks => by
      rw [Else.toShell] at hproblems ⊢
      simp only [Checked.problems_bind, Checked.problems_pure, List.append_nil,
        List.append_eq_nil_iff] at hproblems
      simp only [Else.expressions, List.forall_mem_append] at hspelled
      rw [Else.parts, List.filterMap_append, List.forall_mem_append] at hremarks
      exact Line.oneLine_branch hproblems.1 hnames.1 hspelled.1 (by decide)
        (Stmt.oneLine_allToShell body (depth + 1) hproblems.2.1 hnames.2.1 hspelled.2.1 hremarks.1)
        (Else.oneLine_toShell rest depth hproblems.2.2 hnames.2.2 hspelled.2.2 hremarks.2)

end

/-! ### Scripts -/

/-- Flattening keeps comments and blank lines. -/
theorem Stmt.remark?_lasting : Stmt.Lasting (Stmt.remark? (π := π)) where
  assign _ _ _ _ := rfl
  run _ _ _ := rfl
  cond _ _ _ _ _ := rfl

/-- No line of the shell script of a script has a line feed. -/
theorem Script.oneLine_lines {source : Source} {s : Script Span} {shell : Shell.Script}
    (hparse : Script.parse source = .ok s) (hshell : s.flatten.toShell = .ok shell) :
    Line.AllOneLine (Shell.Stmt.layoutAll 0 shell.statements) := by
  have hremarks : ∀ text ∈ s.flatten.remarks, OneLine text := by
    rw [Script.remarks, Script.readings_flatten Stmt.remark?_lasting, ← Script.remarks,
      Script.remarks_of_parse hparse]
    exact source.oneLine_remarks
  have hnames : s.flatten.NamesIn Text.OneLineUpper :=
    Stmt.NamesInAll.imp (fun _ hname => hname.oneLine) (Script.namesIn_expands_flatten hparse)
  have hspelled := Script.spelled_flatten (Script.spelled_of_parse hparse)
  rcases Script.of_toShell hshell with ⟨hproblems, rfl⟩
  exact Stmt.oneLine_allToShell _ 0 hproblems hnames hspelled hremarks

end Shellward
