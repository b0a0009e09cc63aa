import Shellward.Proofs.Grammar.Scripts
import Shellward.Proofs.Token.Rescan

/-!
# Expressions in their own layout

An expression that is written in its own layout reads back as the same expression,
apart from places.

A derivation of a phrase is rebuilt on the tokens of its layout.  The layout has no
line ends inside calls and no comma after the last argument, so the new derivation is
not the old one, but it follows it step by step.

Main results:

- Theorem `ReadsBack.append`: phrases that may follow each other read back one after
  the other.
- Theorem `Expr.Derives.reprints`: the layout of an expression reads back as it.
-/

namespace Shellward

open Token

/-! ### Reading written phrases -/

/-- Some bytes, written before bytes that may follow them, are read as a phrase. -/
def ReadsBack (follow : Source → Prop) (bytes : Source)
    (Phrase : List Token → List Token → Prop) : Prop :=
  ∀ offset after tail, follow after → ∃ offset',
    Phrase (tokensFrom offset (bytes ++ after) ++ tail) (tokensFrom offset' after ++ tail)

/-- A token whose text can be written and scanned again. -/
def Token.Printable (t : Token) : Prop :=
  t.kind ≠ .eof → Spelling t.kind t.bytes ∧ (t.kind = .atom → BalancedParens t.bytes)

/-- The text of a name or a literal is read as one token. -/
theorem Token.Printable.leaf {t : Token} (h : t.Printable) (hleaf : t.kind ∈ leafKinds) :
    ReadsBack Closes (Utf8.encode t.lexeme) fun input rest =>
      ∃ t' : Token, t'.kind = t.kind ∧ t'.lexeme = t.lexeme ∧ input = t' :: rest := by
  intro offset after tail hafter
  have heof : t.kind ≠ .eof := by
    intro heq
    rw [heq] at hleaf
    exact absurd hleaf (by decide)
  rcases (h heof).1.rescans hleaf (h heof).2 with ⟨b, body, hbytes, hspace, hscan⟩
  rcases tokensFrom_of_scan hspace (hscan after hafter) offset with
    ⟨t', offset', hkind, hbytes', htokens⟩
  have hlexeme : Utf8.encode t.lexeme = b :: body := hbytes
  refine ⟨offset', t', hkind, ?_, ?_⟩
  · rw [lexeme, hbytes', ← hlexeme, Utf8.decode_encode]
  · rw [hlexeme, htokens, List.cons_append]

/-- A name is read as one token also before an opening parenthesis. -/
theorem Token.Printable.name {t : Token} (h : t.Printable) (hkind : t.kind = .identifier) :
    ReadsBack (Stopped isWordByte) (Utf8.encode t.lexeme) fun input rest =>
      ∃ t' : Token, t'.kind = .identifier ∧ t'.lexeme = t.lexeme ∧ input = t' :: rest := by
  intro offset after tail hafter
  have heof : t.kind ≠ .eof := by simp [hkind]
  rcases (h heof).1.of_identifier hkind with ⟨b, body, hbytes, hletter, hbody, hword⟩
  have hspace := isSpace_eq_false_of_isWordByte (isWordByte_of_isLetter hletter)
  rcases tokensFrom_of_scan hspace
    (scan_word hletter hbody hafter) offset with ⟨t', offset', hkind', hbytes', htokens⟩
  have hlexeme : Utf8.encode t.lexeme = b :: body := by
    rw [lexeme, hbytes, Utf8.encode_decode_of_ascii (lt_ascii_of_word hletter hbody)]
  refine ⟨offset', t', hkind'.trans hword, ?_, ?_⟩
  · rw [lexeme, lexeme, hbytes', hbytes]
  · rw [hlexeme, htokens, List.cons_append]

/-! ### Phrases one after the other -/

namespace ReadsBack

variable {F G : Source → Prop} {xs ys : Source} {P Q R : List Token → List Token → Prop}

/-- Two phrases are read one after the other if the second may follow the first. -/
theorem append (hxs : ReadsBack F xs P) (hys : ReadsBack G ys Q)
    (hfollow : ∀ after, G after → F (ys ++ after)) :
    ReadsBack G (xs ++ ys) fun input rest => ∃ middle, P input middle ∧ Q middle rest := by
  intro offset after tail hafter
  rcases hxs offset (ys ++ after) tail (hfollow after hafter) with ⟨middle, hP⟩
  rcases hys middle after tail hafter with ⟨offset', hQ⟩
  refine ⟨offset', _, ?_, hQ⟩
  rw [List.append_assoc]
  exact hP

/-- What a phrase is read as may be weakened. -/
theorem imp (h : ReadsBack F xs P) (hPQ : ∀ input rest, P input rest → Q input rest) :
    ReadsBack F xs Q := by
  intro offset after tail hafter
  rcases h offset after tail hafter with ⟨offset', hP⟩
  exact ⟨offset', hPQ _ _ hP⟩

/-- What may follow a phrase may be restricted. -/
theorem weaken (h : ReadsBack F xs P) (hFG : ∀ after, G after → F after) : ReadsBack G xs P := by
  intro offset after tail hafter
  exact h offset after tail (hFG after hafter)

/-- Spaces are not read as anything. -/
theorem spaces (n : Nat) :
    ReadsBack (fun _ => True) (List.replicate n 0x20) fun input rest => input = rest := by
  intro offset after tail _
  rcases tokensFrom_spaces n offset after with ⟨offset', htokens⟩
  exact ⟨offset', by rw [htokens]⟩

end ReadsBack

/-- The next token is of a kind. -/
def Takes (kind : Kind) (input rest : List Token) : Prop :=
  ∃ t : Token, t.kind = kind ∧ input = t :: rest

/-- A symbol that no other one extends is read as one, whatever follows. -/
theorem readsBack_symbol {bytes : Source} {kind : Kind} (h : (bytes, kind) ∈ symbols)
    (hkind : kind ∉ extendable) : ReadsBack (fun _ => True) bytes (Takes kind) := by
  intro offset after tail _
  rcases symbol_token h (fun hmem => absurd hmem hkind) offset with ⟨t, offset', hkind', htokens⟩
  exact ⟨offset', t, hkind', by rw [htokens, List.cons_append]⟩

/-- A symbol is read as itself before a space. -/
theorem readsBack_symbol_space {bytes : Source} {kind : Kind} (h : (bytes, kind) ∈ symbols) :
    ReadsBack (fun _ => True) (bytes ++ [0x20]) (Takes kind) := by
  intro offset after tail _
  have hspace : kind ∈ extendable → ([0x20] ++ after).head? ≠ some 0x3d := by simp
  rcases symbol_token h hspace offset with ⟨t, middle, hkind', htokens⟩
  refine ⟨middle + 1, t, hkind', ?_⟩
  rw [List.append_assoc, htokens, List.singleton_append, tokensFrom_space (by decide)]
  rfl

/-- A keyword is read as itself before a space. -/
theorem readsBack_keyword_space {word : String} {kind : Kind} (h : (word, kind) ∈ keywords) :
    ReadsBack (fun _ => True) (Utf8.encode word ++ [0x20]) (Takes kind) := by
  intro offset after tail _
  have hspace : Stopped isWordByte ([0x20] ++ after) := by
    intro c hc
    rw [← Option.some.inj hc]
    decide
  rcases keyword_token h hspace offset with ⟨t, middle, hkind', htokens⟩
  refine ⟨middle + 1, t, hkind', ?_⟩
  rw [List.append_assoc, htokens, List.singleton_append, tokensFrom_space (by decide)]
  rfl

theorem readsBack_open : ReadsBack (fun _ => True) (Utf8.encode "(") (Takes .leftParen) :=
  readsBack_symbol (by decide) (by decide)

theorem readsBack_close : ReadsBack (fun _ => True) (Utf8.encode ")") (Takes .rightParen) :=
  readsBack_symbol (by decide) (by decide)

theorem readsBack_minus : ReadsBack (fun _ => True) (Utf8.encode "-") (Takes .minus) :=
  readsBack_symbol (by decide) (by decide)

theorem readsBack_space :
    ReadsBack (fun _ => True) (Utf8.encode " ") fun input rest => input = rest :=
  ReadsBack.spaces 1

theorem readsBack_comma_space : ReadsBack (fun _ => True) (Utf8.encode ", ") (Takes .comma) :=
  @readsBack_symbol_space [0x2c] .comma (by decide)

theorem stopped_open (after : Source) : Stopped isWordByte (Utf8.encode "(" ++ after) := by
  intro c hc
  rw [← Option.some.inj hc]
  decide

theorem closes_comma (after : Source) : Closes (Utf8.encode ", " ++ after) :=
  ⟨0x2c, 0x20 :: after, rfl, by decide⟩

theorem closes_close (after : Source) : Closes (Utf8.encode ")" ++ after) :=
  ⟨closeParen, after, rfl, by decide⟩

theorem closes_space (after : Source) : Closes (Utf8.encode " " ++ after) :=
  ⟨0x20, after, rfl, by decide⟩

/-- The bytes of an operator are one of the symbols. -/
theorem operator_mem_symbols (op : Operator) :
    (Utf8.encode op.spelling, op.symbol) ∈ symbols := by
  cases op <;> decide

/-! ### Expressions -/

namespace Expr

/-- An expression without its places. -/
abbrev erase (e : Expr Span) : Expr Span :=
  e.map fun _ => default

/-- Being read as an expression of a level that differs from `e` only in places. -/
def ReadAgain (level : Level) (e : Expr Span) (input rest : List Token) : Prop :=
  ∃ e' : Expr Span, e'.Derives level input rest ∧ e'.erase = e.erase

/-- Being read as arguments up to the parenthesis that closes a call. -/
def ArgumentsReadAgain (es : List (Expr Span)) (input rest : List Token) : Prop :=
  ∃ es' close, DerivesArguments input es' close rest ∧
    mapAll (fun _ => (default : Span)) es' = mapAll (fun _ => default) es

/-- The last argument of a call is followed by the closing parenthesis. -/
theorem readsBack_last {e : Expr Span}
    (h : ReadsBack Closes (Utf8.encode e.layout) (ReadAgain .equality e)) :
    ReadsBack (fun _ => True) (Utf8.encode (layoutArguments [e] ++ ")"))
      (ArgumentsReadAgain [e]) := by
  have hphrase := h.append readsBack_close fun after _ => closes_close after
  have hbytes : Utf8.encode (layoutArguments [e] ++ ")") =
      Utf8.encode e.layout ++ Utf8.encode ")" := by
    simp [layoutArguments, layoutMore]
  rw [hbytes]
  refine hphrase.imp ?_
  rintro _ rest' ⟨_, ⟨e', he', herase⟩, close', hclose', rfl⟩
  refine ⟨[e'], close', .last he' .none hclose', ?_⟩
  rw [mapAll, mapAll]
  exact congrArg (· :: _) herase

/-- An argument is followed by a comma and the later ones, if there are any. -/
theorem readsBack_arguments {e : Expr Span} {es : List (Expr Span)}
    (h : ReadsBack Closes (Utf8.encode e.layout) (ReadAgain .equality e))
    (hes : ReadsBack (fun _ => True) (Utf8.encode (layoutArguments es ++ ")"))
      (ArgumentsReadAgain es)) :
    ReadsBack (fun _ => True) (Utf8.encode (layoutArguments (e :: es) ++ ")"))
      (ArgumentsReadAgain (e :: es)) := by
  cases es with
  | nil => exact readsBack_last h
  | cons e₂ es =>
      have hphrase := h.append (readsBack_comma_space.append hes fun _ _ => trivial)
        fun after _ => closes_comma _
      have hbytes : Utf8.encode (layoutArguments (e :: e₂ :: es) ++ ")") =
          Utf8.encode e.layout ++ (Utf8.encode ", " ++
            Utf8.encode (layoutArguments (e₂ :: es) ++ ")")) := by
        simp only [layoutArguments, layoutMore, Utf8.encode_append, List.append_assoc]
      rw [hbytes]
      refine hphrase.imp ?_
      rintro _ rest' ⟨_, ⟨e', he', herase⟩, _, ⟨comma', hcomma', rfl⟩, es', close', hes',
        heserase⟩
      refine ⟨e' :: es', close', .more he' .none hcomma' .none hes', ?_⟩
      rw [mapAll, mapAll, heserase]
      exact congrArg (· :: _) herase

mutual

/-- The layout of an expression is read as an expression that differs only in places. -/
theorem Derives.reprints : ∀ {level : Level} {input rest : List Token} {e : Expr Span},
    e.Derives level input rest → (∀ t ∈ input, t.Printable) →
      ReadsBack Closes (Utf8.encode e.layout) (ReadAgain level e)
  | _, _, _, _, @Derives.literal t rest kind hkind, hinput => by
      intro offset after tail hafter
      have hleaf : t.kind ∈ leafKinds := by
        rw [hkind]
        cases kind <;> decide
      rcases (hinput t List.mem_cons_self).leaf hleaf offset after tail hafter with
        ⟨offset', t', hkind', hlexeme, htokens⟩
      refine ⟨offset', .literal kind t'.lexeme t'.span, ?_, ?_⟩
      · rw [layout, htokens]
        exact .literal kind (hkind'.trans hkind)
      · simp [erase, map, hlexeme]
  | _, _, _, _, @Derives.name t rest hkind, hinput => by
      intro offset after tail hafter
      have hstopped := closes_stopped_wordByte hafter
      rcases (hinput t List.mem_cons_self).name hkind offset after tail hstopped with
        ⟨offset', t', hkind', hlexeme, htokens⟩
      refine ⟨offset', .name t'.lexeme t'.span, ?_, ?_⟩
      · rw [layout, htokens]
        exact .name hkind'
      · simp [erase, map, hlexeme]
  | _, _, _, _, @Derives.group left right input rest inner hleft h hright, hinput => by
      have hinner := h.reprints fun t ht => hinput t (List.mem_cons_of_mem left ht)
      have hphrase := readsBack_open.append
        (hinner.append readsBack_close fun after _ => closes_close after) fun _ _ => trivial
      rw [layout, Utf8.encode_append, Utf8.encode_append, List.append_assoc]
      refine (hphrase.weaken fun _ _ => trivial).imp ?_
      rintro _ rest' ⟨_, ⟨left', hleft', rfl⟩, _, ⟨e', he', herase⟩, right', hright', rfl⟩
      refine ⟨_, .group hleft' he' hright', ?_⟩
      simp [erase, map, herase]
  | _, _, _, _, @Derives.call callee left close input first rest arguments hcallee hleft hends h,
      hinput => by
      have hfirst : ∀ t ∈ first, t.Printable := fun t ht =>
        hinput t (List.mem_cons_of_mem _ (List.mem_cons_of_mem _ (hends.suffix.mem ht)))
      have hphrase := ((hinput callee List.mem_cons_self).name hcallee).append
        (readsBack_open.append (h.reprints hfirst) fun _ _ => trivial)
        fun after _ => stopped_open _
      have hbytes : Utf8.encode (layout (.call .plain callee.lexeme callee.span arguments
          (callee.span.merge close.span))) = Utf8.encode callee.lexeme ++ (Utf8.encode "(" ++
            Utf8.encode (layoutArguments arguments ++ ")")) := by
        simp only [layout, Utf8.encode_append, List.append_assoc]
      rw [hbytes]
      refine (hphrase.weaken fun _ _ => trivial).imp ?_
      rintro _ rest' ⟨_, ⟨callee', hcallee', hlexeme, rfl⟩, _, ⟨left', hleft', rfl⟩, es', close',
        hes', herase⟩
      refine ⟨_, .call hcallee' hleft' .none hes', ?_⟩
      simp [erase, map, hlexeme, herase]
  | _, _, _, _, @Derives.negate sign input rest inner hsign h, hinput => by
      have hinner := h.reprints fun t ht => hinput t (List.mem_cons_of_mem sign ht)
      have hphrase := readsBack_minus.append hinner fun _ _ => trivial
      rw [layout, Utf8.encode_append]
      refine hphrase.imp ?_
      rintro _ rest' ⟨_, ⟨sign', hsign', rfl⟩, e', he', herase⟩
      refine ⟨_, .negate hsign' he', ?_⟩
      simp [erase, map, herase]
  | _, _, _, _, @Derives.binary t input middle rest left right op hleft hsymbol hright,
      hinput => by
      have hmiddle : ∀ u ∈ middle, u.Printable := fun u hu =>
        hinput u (hleft.suffix.mem (List.mem_cons_of_mem t hu))
      have hphrase := (hleft.reprints hinput).append
        ((readsBack_space.append (readsBack_symbol_space (operator_mem_symbols op))
          fun _ _ => trivial).append (hright.reprints hmiddle) fun _ _ => trivial)
        fun after _ => closes_space _
      have hbytes : Utf8.encode (layout (.binary op left right (left.place.merge right.place))) =
          Utf8.encode left.layout ++ (Utf8.encode " " ++
            (Utf8.encode op.spelling ++ [0x20]) ++ Utf8.encode right.layout) := by
        simp only [layout, Utf8.encode_append, List.append_assoc]
        rfl
      rw [hbytes]
      refine hphrase.imp ?_
      rintro _ rest' ⟨_, ⟨l, hl, hlerase⟩, _, ⟨_, rfl, t', ht', rfl⟩, r, hr, hrerase⟩
      refine ⟨_, .binary op hl ht' hr, ?_⟩
      simp [erase, map, hlerase, hrerase]
  | _, _, _, _, .tighter h, hinput => by
      intro offset after tail hafter
      rcases h.reprints hinput offset after tail hafter with ⟨offset', e', he', herase⟩
      exact ⟨offset', e', .tighter he', herase⟩

/-- Arguments that were read, laid out again, are read as the same arguments. -/
theorem DerivesArguments.reprints : ∀ {input rest : List Token} {es : List (Expr Span)}
    {close : Token}, DerivesArguments input es close rest → (∀ t ∈ input, t.Printable) →
      ReadsBack (fun _ => True) (Utf8.encode (layoutArguments es ++ ")")) (ArgumentsReadAgain es)
  | _, _, _, _, .none _, _ => by
      refine readsBack_close.imp ?_
      rintro _ rest' ⟨close', hclose', rfl⟩
      exact ⟨[], close', .none hclose', rfl⟩
  | _, _, _, _, .last h _ _, hinput => readsBack_last (h.reprints hinput)
  | _, _, _, _, @DerivesArguments.more comma close input middle after next rest e es h hends hcomma
      hafter hmore, hinput => by
      have hlater : ∀ t ∈ next, t.Printable := fun t ht =>
        hinput t (h.suffix.mem (hends.suffix.mem
          (List.mem_cons_of_mem comma (hafter.suffix.mem ht))))
      exact readsBack_arguments (h.reprints hinput) (hmore.reprints hlater)

end

end Expr

end Shellward
