import Shellward.Proofs.Script.Parts

/-!
# Comments and blank lines

The remarks of a script are its comments and its blank lines.  They show in the tokens alone: a
line is blank if its end is the only token on it, and a line end inside parentheses only
continues a call.  A script that is read has its remarks as statements, in their order.

Main results:

- Theorem `Stmt.DerivesAll.remarks`: the remarks among the tokens of some statements are the
  statements that are remarks, at any depth.
- Theorem `Script.remarks_of_parse`: the remarks of a script are those of its source.
-/

namespace Shellward

variable {π : Type}

/-- The text of a comment; a blank line has the empty text. -/
def Stmt.remark? : Stmt π → Option String
  | .comment text _ => some text
  | .blank _ => some ""
  | .assign .. | .run .. | .cond .. => none

/-- The texts of the comments and blank lines of a script, at any depth. -/
def Script.remarks (s : Script π) : List String :=
  s.allStatements.filterMap Stmt.remark?

/-! ### Remarks among tokens -/

namespace Token

/-- The texts of the comments among tokens that stand inside `depth` parentheses, and of the
blank lines that are outside of all parentheses; `fresh` tells whether no token stands on the
line yet. -/
def remarks (depth : Nat) (fresh : Bool) : List Token → List String
  | [] => []
  | t :: ts =>
      match t.kind with
      | .comment => t.lexeme :: remarks depth false ts
      | .newLine =>
          if depth = 0 ∧ fresh = true then "" :: remarks depth true ts else remarks depth true ts
      | .leftParen => remarks (depth + 1) false ts
      | .rightParen => remarks (depth - 1) false ts
      | _ => remarks depth false ts

/-- A remark is an empty text or the text of a comment. -/
theorem mem_remarks {text : String} {depth : Nat} {fresh : Bool} {ts : List Token}
    (h : text ∈ remarks depth fresh ts) :
    text = "" ∨ ∃ t ∈ ts, t.kind = .comment ∧ t.lexeme = text := by
  have hmore : ∀ (first : Token) {rest : List Token},
      (text = "" ∨ ∃ t ∈ rest, t.kind = .comment ∧ t.lexeme = text) →
        text = "" ∨ ∃ t ∈ first :: rest, t.kind = .comment ∧ t.lexeme = text := by
    rintro first rest (hempty | ⟨t, ht, htext⟩)
    · exact .inl hempty
    · exact .inr ⟨t, List.mem_cons_of_mem first ht, htext⟩
  fun_induction remarks depth fresh ts with
  | case1 => exact absurd h List.not_mem_nil
  | case2 depth fresh t ts hkind ih =>
      rcases List.mem_cons.mp h with rfl | h
      · exact .inr ⟨t, List.mem_cons_self, hkind, rfl⟩
      · exact hmore t (ih h)
  | case3 depth fresh t ts hkind hblank ih =>
      rcases List.mem_cons.mp h with rfl | h
      · exact .inl rfl
      · exact hmore t (ih h)
  | case4 | case5 | case6 | case7 =>
      rename_i ih
      exact hmore _ (ih h)

/-- The token of an operator is no remark, and its line is not blank. -/
theorem remarks_operator {t : Token} {op : Operator} (h : t.kind = op.symbol) (depth : Nat)
    (fresh : Bool) (ts : List Token) :
    remarks depth fresh (t :: ts) = remarks depth false ts := by
  cases op <;> simp [remarks, h, Operator.symbol]

end Token

/-- The texts of the comments of a source and of its blank lines outside parentheses. -/
def Source.remarks (source : Source) : List String :=
  Token.remarks 0 true (Token.ofSource source)

/-! ### Remarks and the grammar -/

/-- Inside parentheses, line ends are no remarks. -/
theorem LineEnds.remarks {input rest : List Token} (h : LineEnds input rest) (depth : Nat)
    (fresh : Bool) :
    ∃ fresh', Token.remarks (depth + 1) fresh input = Token.remarks (depth + 1) fresh' rest := by
  induction h generalizing fresh with
  | none => exact ⟨fresh, rfl⟩
  | more hkind _ ih =>
      rcases ih true with ⟨fresh', h⟩
      exact ⟨fresh', by simpa [Token.remarks, hkind] using h⟩

/-- The end of a clause is no blank line. -/
theorem Terminator.remarks {input rest : List Token} (h : Terminator input rest) :
    Token.remarks 0 false input = Token.remarks 0 true rest := by
  cases h with
  | line hkind => simp [Token.remarks, hkind]
  | last hkind => simp [Token.remarks, hkind]

mutual

/-- There are no remarks in an expression. -/
theorem Expr.Derives.remarks : ∀ {level : Level} {input rest : List Token} {e : Expr Span},
    Expr.Derives level input e rest → ∀ (depth : Nat) (fresh : Bool),
      Token.remarks depth fresh input = Token.remarks depth false rest
  | _, _, _, _, .literal kind hkind, depth, fresh => by
      cases kind <;> simp [Token.remarks, hkind, Literal.symbol]
  | _, _, _, _, .name hkind, depth, fresh => by simp [Token.remarks, hkind]
  | _, _, _, _, .group hleft hinner hright, depth, fresh => by
      simp [Token.remarks, hleft, hinner.remarks, hright]
  | _, _, _, _, .call hcallee hleft hends harguments, depth, fresh => by
      rcases hends.remarks depth false with ⟨fresh', hends⟩
      simp [Token.remarks, hcallee, hleft, hends, harguments.remarks]
  | _, _, _, _, .negate hsign hinner, depth, fresh => by
      simp [Token.remarks, hsign, hinner.remarks]
  | _, _, _, _, .binary op hleft hkind hright, depth, fresh => by
      rw [hleft.remarks, Token.remarks_operator hkind, hright.remarks]
  | _, _, _, _, .tighter h, depth, fresh => h.remarks depth fresh

/-- There are no remarks in the arguments of a call. -/
theorem Expr.DerivesArguments.remarks : ∀ {input rest : List Token} {es : List (Expr Span)}
    {close : Token}, Expr.DerivesArguments input es close rest → ∀ (depth : Nat) (fresh : Bool),
      Token.remarks (depth + 1) fresh input = Token.remarks depth false rest
  | _, _, _, _, .none hclose, depth, fresh => by simp [Token.remarks, hclose]
  | _, _, _, _, .last hargument hends hclose, depth, fresh => by
      rcases hends.remarks depth false with ⟨fresh', hends⟩
      simp [hargument.remarks, hends, Token.remarks, hclose]
  | _, _, _, _, .more hargument hends hcomma hafter hmore, depth, fresh => by
      rcases hends.remarks depth false with ⟨_, hends⟩
      rcases hafter.remarks depth false with ⟨_, hafter⟩
      rw [hargument.remarks, hends]
      simp [Token.remarks, hcomma, hafter, hmore.remarks]

end

mutual

/-- The remarks among the tokens of a statement are the statements in it that are remarks. -/
theorem Stmt.Derives.remarks : ∀ {input rest : List Token} {s : Stmt Span},
    Stmt.Derives input s rest →
      Token.remarks 0 true input = s.parts.filterMap Stmt.remark? ++ Token.remarks 0 true rest
  | _, _, _, .comment hkind hend => by
      simp [Token.remarks, hkind, hend.remarks, Stmt.parts, Stmt.remark?]
  | _, _, _, .blank hkind => by simp [Token.remarks, hkind, Stmt.parts, Stmt.remark?]
  | _, _, _, .assign hstart htarget hsign hvalue hend => by
      simp [Token.remarks, hstart, htarget, hsign, hvalue.remarks, hend.remarks, Stmt.parts,
        Stmt.remark?]
  | _, _, _, .cond hstart htest hbody halternative hend => by
      rw [Stmt.parts, List.filterMap_cons_none rfl, List.filterMap_append]
      simp [Token.remarks, hstart, htest.remarks, hbody.remarks, halternative.remarks,
        hend.remarks]
  | _, _, _, .run hvalue hend => by
      simp [hvalue.remarks, hend.remarks, Stmt.parts, Stmt.remark?]

/-- The remarks among the tokens of several statements are the statements in them that are
remarks. -/
theorem Stmt.DerivesAll.remarks : ∀ {input rest : List Token} {ss : List (Stmt Span)},
    Stmt.DerivesAll input ss rest →
      Token.remarks 0 true input =
        (Stmt.allParts ss).filterMap Stmt.remark? ++ Token.remarks 0 true rest
  | _, _, _, .nil => rfl
  | _, _, _, .cons hfirst hmore => by simp [hfirst.remarks, hmore.remarks, Stmt.allParts]

/-- The remarks among the tokens of a block are the statements in it that are remarks. -/
theorem Stmt.DerivesBlock.remarks : ∀ {input rest : List Token} {body : List (Stmt Span)}
    {place : Span}, Stmt.DerivesBlock input body place rest →
      Token.remarks 0 false input =
        (Stmt.allParts body).filterMap Stmt.remark? ++ Token.remarks 0 false rest
  | _, _, _, _, .braces hleft hline hbody hright => by
      simp [Token.remarks, hleft, hline, hbody.remarks, hright]

/-- The remarks among the tokens after the body of a conditional are the statements in what
follows it that are remarks. -/
theorem Else.Derives.remarks : ∀ {input rest : List Token} {a : Else Span},
    Else.Derives input a rest →
      Token.remarks 0 false input = a.parts.filterMap Stmt.remark? ++ Token.remarks 0 false rest
  | _, _, _, .absent => rfl
  | _, _, _, .block hword hbody => by simp [Token.remarks, hword, hbody.remarks, Else.parts]
  | _, _, _, .elseIf hword hstart htest hbody hrest => by
      simp [Token.remarks, hword, hstart, htest.remarks, hbody.remarks, hrest.remarks, Else.parts]

end

/-- The remarks of a script that is read are those of its source. -/
theorem Script.remarks_of_parse {source : Source} {s : Script Span}
    (h : Script.parse source = .ok s) : s.remarks = source.remarks := by
  rcases (read_eq_iff.mp (parse_eq_ok_iff.mp h)).1 with ⟨t, hend, hstatements⟩
  rw [Source.remarks, hstatements.remarks, Script.remarks, Script.allStatements]
  simp [Token.remarks, hend]

end Shellward
