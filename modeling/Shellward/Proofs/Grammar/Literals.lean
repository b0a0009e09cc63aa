import Shellward.Proofs.Grammar.Names
import Shellward.Proofs.Script.Parts

/-!
# Literals and names of scripts

The literals and the names in a script that is read are texts of tokens, and so are the names
by which it calls.

Main results:

- Theorem `Script.spelled_of_parse`: the literals and the callees in a script are spelt as
  tokens are.
- Theorem `Script.names_of_parse`: so are the names that it reads or sets.
-/

namespace Shellward

variable {π : Type}

/-- A text is that of a token of a kind. -/
def Token.Kind.Spells (kind : Token.Kind) (text : String) : Prop :=
  ∃ bytes, Token.Spelling kind bytes ∧ Utf8.decode bytes = text

/-- A letter and the bytes of a word spell a name, unless they spell a keyword. -/
theorem Token.Kind.spells_identifier {text : String} {b : UInt8} {body : Source}
    (hbytes : Utf8.encode text = b :: body) (hletter : isLetter b = true)
    (hbody : body.all isWordByte = true) (hkind : wordKind (b :: body) = .identifier) :
    Kind.identifier.Spells text := by
  refine ⟨b :: body, ?_, ?_⟩
  · rw [← hkind]
    exact .word hletter (List.all_eq_true.mp hbody)
  · rw [← hbytes, Utf8.decode_encode]

/-- A token is spelt as its kind says, or is the end mark. -/
def Token.Legible (t : Token) : Prop :=
  t.kind ≠ .eof → Token.Spelling t.kind t.bytes

namespace Expr

/-- A literal is spelt as a literal of its kind, and a callee as a name. -/
def Spelled : Expr π → Prop
  | .literal kind text _ => kind.symbol.Spells text
  | .call _ callee _ _ _ => Token.Kind.identifier.Spells callee
  | _ => True

/-- The names in an expression are spelt as names, and all its parts as they should. -/
def AllSpelled (e : Expr π) : Prop :=
  e.NamesIn Token.Kind.identifier.Spells ∧ ∀ part ∈ e.parts, part.Spelled

/-- A token is read as an expression that is spelt like the token. -/
theorem allSpelled_of_ofToken? {t : Token} {e : Expr Span} (ht : t.Legible)
    (h : ofToken? t = some e) : e.AllSpelled := by
  have hspelling : Token.Spelling t.kind t.bytes := by
    apply ht
    intro hkind
    simp [ofToken?, hkind] at h
  have hliteral : ∀ kind : Literal, t.kind = kind.symbol →
      (Expr.literal kind t.lexeme t.span).AllSpelled := by
    intro kind hkind
    exact ⟨trivial, List.forall_mem_singleton.mpr ⟨t.bytes, hkind ▸ hspelling, rfl⟩⟩
  unfold ofToken? at h
  split at h
  case h_1 hkind => exact Option.some.inj h ▸ hliteral .string hkind
  case h_2 hkind => exact Option.some.inj h ▸ hliteral .pattern hkind
  case h_3 hkind => exact Option.some.inj h ▸ hliteral .atom hkind
  case h_4 hkind => exact Option.some.inj h ▸ hliteral .number hkind
  case h_5 hkind =>
    rw [← Option.some.inj h]
    exact ⟨⟨t.bytes, hkind ▸ hspelling, rfl⟩, List.forall_mem_singleton.mpr trivial⟩
  case h_6 => simp at h

/-- Being spelt well is handed on from the parts of an expression to the expression. -/
theorem allSpelled_grown : Grown Token.Legible (fun _ => AllSpelled) where
  token := allSpelled_of_ofToken?
  negate h := ⟨h.1, List.forall_mem_cons.mpr ⟨trivial, h.2⟩⟩
  group h := ⟨h.1, List.forall_mem_cons.mpr ⟨trivial, h.2⟩⟩
  call hcallee harguments := by
    refine ⟨namesInAll_iff.mpr fun e he => (harguments e he).1,
      List.forall_mem_cons.mpr ⟨hcallee.1, ?_⟩⟩
    intro part hpart
    rcases mem_allParts.mp hpart with ⟨e, he, hpart⟩
    exact (harguments e he).2 part hpart
  binary hleft hright :=
    ⟨⟨hleft.1, hright.1⟩,
      List.forall_mem_cons.mpr ⟨trivial, List.forall_mem_append.mpr ⟨hleft.2, hright.2⟩⟩⟩

end Expr

/-- Having expressions that are spelt well is handed on to statements. -/
theorem Stmt.spelled_grown :
    Grown Token.Legible (fun _ => Expr.AllSpelled)
      (fun _ s => ∀ e ∈ s.expressions, e.Spelled) (fun _ a => ∀ e ∈ a.expressions, e.Spelled) where
  expression := Expr.allSpelled_grown
  comment := List.forall_mem_nil _
  blank := List.forall_mem_nil _
  assign _ _ hvalue := hvalue.2
  run hvalue := hvalue.2
  cond htest hbody halternative :=
    List.forall_mem_append.mpr ⟨htest.2, List.forall_mem_append.mpr
      ⟨Stmt.forall_mem_allExpressions.mpr hbody, halternative⟩⟩
  absent := List.forall_mem_nil _
  block hbody := Stmt.forall_mem_allExpressions.mpr hbody
  elseIf htest hbody hrest :=
    List.forall_mem_append.mpr ⟨htest.2, List.forall_mem_append.mpr
      ⟨Stmt.forall_mem_allExpressions.mpr hbody, hrest⟩⟩

namespace Script

variable {source : Source} {s : Script Span}

/-- In a script that is read, literals and callees are spelt as tokens are. -/
theorem spelled_of_parse (h : parse source = .ok s) : ∀ e ∈ s.expressions, e.Spelled := by
  have hread : ∀ s ∈ (read source).1.statements, ∀ e ∈ s.expressions, e.Spelled :=
    Stmt.spelled_grown.read (fun _ hkind => absurd rfl hkind)
      fun t ht _ => Token.spelling_of_mem_tokensFrom ht
  rw [parse_eq_ok_iff.mp h] at hread
  exact Stmt.forall_mem_allExpressions.mpr hread

/-- In a script that is read, names are spelt as tokens are. -/
theorem names_of_parse (h : parse source = .ok s) : s.NamesIn Token.Kind.identifier.Spells := by
  have hread : (read source).1.NamesIn Token.Kind.identifier.Spells := by
    apply namesIn_read_of_tokens
    intro t ht hkind
    exact ⟨t.bytes, hkind ▸ Token.spelling_of_mem_tokensFrom ht, rfl⟩
  rw [parse_eq_ok_iff.mp h] at hread
  exact hread

end Script
end Shellward
