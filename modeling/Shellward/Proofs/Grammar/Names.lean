import Shellward.Proofs.Grammar.Growth
import Shellward.Proofs.Utf8

/-!
# The names in scripts

Every name in the tree of a script is the text of a token, so it begins with a
letter.  This holds of every tree that is read, also of one with mistakes.

Main results:

- Theorem `Script.namesIn_read`: the names in the tree of a script begin with
  letters.
-/

namespace Shellward

variable {π : Type}

/-! ### Trees over some names -/

mutual

/-- The names that an expression reads satisfy a property. -/
def Expr.NamesIn (P : String → Prop) : Expr π → Prop
  | .literal .. => True
  | .name text _ => P text
  | .call _ _ _ arguments _ => Expr.NamesInAll P arguments
  | .binary _ left right _ => left.NamesIn P ∧ right.NamesIn P
  | .negate inner _ | .group inner _ => inner.NamesIn P

/-- The names that several expressions read satisfy a property. -/
def Expr.NamesInAll (P : String → Prop) : List (Expr π) → Prop
  | [] => True
  | e :: es => e.NamesIn P ∧ Expr.NamesInAll P es

end

mutual

/-- The names that a statement reads or sets satisfy a property. -/
def Stmt.NamesIn (P : String → Prop) : Stmt π → Prop
  | .comment .. | .blank _ => True
  | .assign target _ value _ => P target ∧ value.NamesIn P
  | .run value _ => value.NamesIn P
  | .cond test body _ alternative _ =>
      test.NamesIn P ∧ Stmt.NamesInAll P body ∧ alternative.NamesIn P

/-- The names that several statements read or set satisfy a property. -/
def Stmt.NamesInAll (P : String → Prop) : List (Stmt π) → Prop
  | [] => True
  | s :: ss => s.NamesIn P ∧ Stmt.NamesInAll P ss

/-- The names in what follows the body of a conditional satisfy a property. -/
def Else.NamesIn (P : String → Prop) : Else π → Prop
  | .absent => True
  | .block body _ => Stmt.NamesInAll P body
  | .elseIf test body _ rest => test.NamesIn P ∧ Stmt.NamesInAll P body ∧ rest.NamesIn P

end

/-- The names that a script reads or sets satisfy a property. -/
def Script.NamesIn (P : String → Prop) (s : Script π) : Prop :=
  Stmt.NamesInAll P s.statements

/-- The names of several expressions are those of each of them. -/
theorem Expr.namesInAll_iff {P : String → Prop} {es : List (Expr π)} :
    NamesInAll P es ↔ ∀ e ∈ es, e.NamesIn P := by
  induction es with
  | nil => simp [NamesInAll]
  | cons e es ih => simp [NamesInAll, ih]

/-- The names of several statements are those of each of them. -/
theorem Stmt.namesInAll_iff {P : String → Prop} {ss : List (Stmt π)} :
    NamesInAll P ss ↔ ∀ s ∈ ss, s.NamesIn P := by
  induction ss with
  | nil => simp [NamesInAll]
  | cons s ss ih => simp [NamesInAll, ih]

mutual

/-- The names of an expression have every property that follows from one they have. -/
theorem Expr.NamesIn.imp {P Q : String → Prop} (h : ∀ name, P name → Q name) :
    ∀ {e : Expr π}, e.NamesIn P → e.NamesIn Q
  | .literal .., _ => trivial
  | .name text _, he => h text he
  | .call .., he => Expr.NamesInAll.imp h he
  | .binary .., he => ⟨Expr.NamesIn.imp h he.1, Expr.NamesIn.imp h he.2⟩
  | .negate inner _, he => Expr.NamesIn.imp h (e := inner) he
  | .group inner _, he => Expr.NamesIn.imp h (e := inner) he

/-- The names of expressions have every property that follows from one they have. -/
theorem Expr.NamesInAll.imp {P Q : String → Prop} (h : ∀ name, P name → Q name) :
    ∀ {es : List (Expr π)}, Expr.NamesInAll P es → Expr.NamesInAll Q es
  | [], _ => trivial
  | _ :: _, hes => ⟨Expr.NamesIn.imp h hes.1, Expr.NamesInAll.imp h hes.2⟩

end

mutual

/-- The names of a statement have every property that follows from one they have. -/
theorem Stmt.NamesIn.imp {P Q : String → Prop} (h : ∀ name, P name → Q name) :
    ∀ {s : Stmt π}, s.NamesIn P → s.NamesIn Q
  | .comment .., _ => trivial
  | .blank _, _ => trivial
  | .assign target _ _ _, hs => ⟨h target hs.1, Expr.NamesIn.imp h hs.2⟩
  | .run value _, hs => Expr.NamesIn.imp h (e := value) hs
  | .cond .., hs =>
      ⟨Expr.NamesIn.imp h hs.1, Stmt.NamesInAll.imp h hs.2.1, Else.NamesIn.imp h hs.2.2⟩

/-- The names of statements have every property that follows from one they have. -/
theorem Stmt.NamesInAll.imp {P Q : String → Prop} (h : ∀ name, P name → Q name) :
    ∀ {ss : List (Stmt π)}, Stmt.NamesInAll P ss → Stmt.NamesInAll Q ss
  | [], _ => trivial
  | _ :: _, hss => ⟨Stmt.NamesIn.imp h hss.1, Stmt.NamesInAll.imp h hss.2⟩

theorem Else.NamesIn.imp {P Q : String → Prop} (h : ∀ name, P name → Q name) :
    ∀ {a : Else π}, a.NamesIn P → a.NamesIn Q
  | .absent, _ => trivial
  | .block .., ha => Stmt.NamesInAll.imp h ha
  | .elseIf .., ha =>
      ⟨Expr.NamesIn.imp h ha.1, Stmt.NamesInAll.imp h ha.2.1, Else.NamesIn.imp h ha.2.2⟩

end

/-! ### Names come from tokens -/

section Grammar

variable {P : String → Prop}

/-- If a token is a name, its text satisfies a property. -/
def Token.NameIn (P : String → Prop) (t : Token) : Prop :=
  t.kind = .identifier → P t.lexeme

/-- The name that a token is read as has the property of the token. -/
theorem Expr.namesIn_of_ofToken? {t : Token} {e : Expr Span} (ht : t.NameIn P)
    (h : ofToken? t = some e) : e.NamesIn P := by
  unfold ofToken? at h
  split at h
  case h_5 hkind =>
    rw [← Option.some.inj h]
    exact ht hkind
  case h_6 => simp at h
  all_goals
    rw [← Option.some.inj h]
    trivial

/-- The names of an expression are those of its parts. -/
theorem Expr.namesIn_grown : Grown (Token.NameIn P) (fun _ => NamesIn P) where
  token := namesIn_of_ofToken?
  negate h := h
  group h := h
  call _ harguments := namesInAll_iff.mpr harguments
  binary hleft hright := ⟨hleft, hright⟩

/-- The names of a statement are those of its parts. -/
theorem Stmt.namesIn_grown :
    Grown (Token.NameIn P) (fun _ => Expr.NamesIn P) (fun _ => NamesIn P)
      (fun _ => Else.NamesIn P) where
  expression := Expr.namesIn_grown
  comment := trivial
  blank := trivial
  assign ht hkind hvalue := ⟨ht hkind, hvalue⟩
  run hvalue := hvalue
  cond htest hbody halternative := ⟨htest, namesInAll_iff.mpr hbody, halternative⟩
  absent := trivial
  block hbody := namesInAll_iff.mpr hbody
  elseIf htest hbody hrest := ⟨htest, namesInAll_iff.mpr hbody, hrest⟩

end Grammar

/-- The names in the tree of a script are texts of its tokens, whatever mistakes the script
has. -/
theorem Script.namesIn_read_of_tokens {P : String → Prop} {source : Source}
    (h : ∀ t ∈ Token.tokensFrom 0 source, t.NameIn P) : (read source).1.NamesIn P := by
  have hend : ∀ offset, (Token.endMark offset).NameIn P := by
    intro offset hkind
    simp [Token.endMark] at hkind
  exact Stmt.namesInAll_iff.mpr (Stmt.namesIn_grown.read hend h)

/-! ### Names begin with letters -/

/-- The first character of a text is a letter. -/
def Text.BeginsWithLetter (text : String) : Prop :=
  ∃ c, text.toList.head? = some c ∧ c.isAlpha = true

theorem Token.lt_ascii_of_isLetter {b : UInt8} (h : isLetter b = true) : b < 0x80 := by
  rw [isLetter_iff] at h
  rw [Utf8.lt_ascii_iff]
  omega

/-- A byte that is a letter is a character that is a letter. -/
theorem Token.isAlpha_of_isLetter {b : UInt8} (h : isLetter b = true) :
    (Char.ofNat b.toNat).isAlpha = true := by
  have hall : ∀ n < 128, isLetter (UInt8.ofNat n) = true → (Char.ofNat n).isAlpha = true := by
    decide +kernel
  exact Utf8.of_ascii (fun b c => isLetter b = true → c.isAlpha = true) hall
    (lt_ascii_of_isLetter h) h

/-- The text of a name begins with a letter. -/
theorem Token.nameIn_of_spelling {t : Token} (h : Spelling t.kind t.bytes) :
    t.NameIn Text.BeginsWithLetter := by
  intro hkind
  rcases h.of_identifier hkind with ⟨b, body, hbytes, hletter, _⟩
  refine ⟨Char.ofNat b.toNat, ?_, isAlpha_of_isLetter hletter⟩
  rw [lexeme, hbytes, Utf8.decode, String.toList_ofList,
    Utf8.decode_ascii (lt_ascii_of_isLetter hletter)]
  rfl

/-- The names in the tree of a script begin with letters, whatever mistakes the
script has. -/
theorem Script.namesIn_read (source : Source) :
    (read source).1.NamesIn Text.BeginsWithLetter := by
  apply namesIn_read_of_tokens
  intro t ht
  exact Token.nameIn_of_spelling (Token.spelling_of_mem_tokensFrom ht)

end Shellward
