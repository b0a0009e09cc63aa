import Shellward.Proofs.Script.Flattening
import Shellward.Proofs.Script.Parts

/-!
# The flat form of scripts

The form that flattening gives to scripts, said apart from flattening.  Where a value
stands, every call is nested, but for calls of expansions, which take a variable and
words.  Two kinds of calls may hold anything: expansions with a wrong number of
arguments, and calls that were nested before.

Main results:

- Theorem `Expr.flatten_flat`: flattening makes an expression flat, and so it makes the
  assignments that it puts before.
- Theorem `Expr.Flat.flatten_eq`: a flat expression is flattened to itself, whatever is
  around it, and needs no temporary.
- Theorem `Script.flattenFrom_flattenFrom`: flattening a flattened script changes nothing.
-/

namespace Shellward

variable {π α β : Type}

/-! ### Flat expressions -/

/-- Every builtin takes at least one argument. -/
theorem Expansion.arity_ne_zero (x : Expansion) : x.arity ≠ 0 := by
  cases x <;> simp [arity]

namespace Expr

/-- Whether an expression is a literal or a call, as the words of an expansion are. -/
def isWord : Expr π → Bool
  | .literal .. | .call .. => true
  | _ => false

/-- Expressions that are flat where a value stands; `given` are the calls that were
nested before. -/
inductive Flat (given : Expr π → Prop) : Expr π → Prop where
  | literal (kind : Literal) (text : String) (p : π) : Flat given (.literal kind text p)
  | name (text : String) (p : π) : Flat given (.name text p)
  | given {d : Nat} {callee : String} {cp p : π} {arguments : List (Expr π)}
      (h : given (.call (.nested d) callee cp arguments p)) :
      Flat given (.call (.nested d) callee cp arguments p)
  | command {d : Nat} {callee : String} {cp p : π} {arguments : List (Expr π)}
      (hcallee : Expansion.ofName? callee = none) (harguments : ∀ e ∈ arguments, Flat given e) :
      Flat given (.call (.nested d) callee cp arguments p)
  | misused {callee : String} {cp p : π} {arguments : List (Expr π)} {x : Expansion}
      (hcallee : Expansion.ofName? callee = some x) (harity : arguments.length ≠ x.arity) :
      Flat given (.call .plain callee cp arguments p)
  | expansion {callee text : String} {cp tp p : π} {words : List (Expr π)} {x : Expansion}
      (hcallee : Expansion.ofName? callee = some x)
      (harity : (Expr.name text tp :: words).length = x.arity)
      (hforms : ∀ e ∈ words, e.isWord = true) (hwords : ∀ e ∈ words, Flat given e) :
      Flat given (.call .plain callee cp (.name text tp :: words) p)
  | binary {op : Operator} {left right : Expr π} {p : π} (hleft : Flat given left)
      (hright : Flat given right) : Flat given (.binary op left right p)
  | negate {inner : Expr π} {p : π} (hinner : Flat given inner) : Flat given (.negate inner p)
  | group {inner : Expr π} {p : π} (hinner : Flat given inner) : Flat given (.group inner p)

/-- Expressions that are flat as a whole statement: a call that runs a command stands
as it is written. -/
inductive FlatLine (given : Expr π → Prop) : Expr π → Prop where
  | value {e : Expr π} (h : Flat given e) : FlatLine given e
  | command {callee : String} {cp p : π} {arguments : List (Expr π)}
      (hcallee : Expansion.ofName? callee = none) (harguments : ∀ e ∈ arguments, Flat given e) :
      FlatLine given (.call .plain callee cp arguments p)

/-- Among some expressions, the calls that are nested are given ones. -/
abbrev NestsOnly (given : Expr π → Prop) (es : List (Expr π)) : Prop :=
  ∀ e ∈ es, e.isNested = true → given e

/-! ### Flat expressions are flattened to themselves -/

/-- A literal or a call that is flattened to itself is a word already. -/
theorem toWord_eq {e : Expr π} (h : e.isWord = true) (depth : Nat) {n : Nat}
    {flat : Flatten π (Expr π)} (hflat : flat n = ⟨e, [], n⟩) :
    e.toWord depth flat n = ⟨e, [], n⟩ := by
  cases e with
  | literal => rfl
  | call form =>
      cases form with
      | nested d => rfl
      | plain => exact hflat
  | name | binary | negate | group => simp [isWord] at h

/-- Words that are flattened to themselves stay as they are. -/
theorem flattenWords_eq {words : List (Expr π)} (depth n : Nat)
    (hforms : ∀ e ∈ words, e.isWord = true)
    (hwords : ∀ e ∈ words, ∀ n : Nat, e.flatten depth n = ⟨e, [], n⟩) :
    flattenWords depth words n = ⟨words, [], n⟩ := by
  induction words with
  | nil =>
      rw [flattenWords]
      rfl
  | cons e es ih =>
      rcases List.forall_mem_cons.mp hforms with ⟨hform, hforms⟩
      rcases List.forall_mem_cons.mp hwords with ⟨hword, hwords⟩
      rw [flattenWords]
      simp only [Flatten.bind_apply, toWord_eq hform depth (hword n), ih hforms hwords,
        Flatten.pure_apply, List.append_nil]

/-- A flat expression is flattened to itself, inside any number of others. -/
theorem Flat.flatten_eq {given : Expr π → Prop} {e : Expr π} (h : e.Flat given) (depth n : Nat) :
    e.flatten depth n = ⟨e, [], n⟩ := by
  induction h generalizing depth n with
  | literal | name | given | command =>
      rw [flatten]
      rfl
  | misused hcallee harity =>
      rw [flatten_misused hcallee depth _ _ harity]
      rfl
  | expansion hcallee harity hforms _ ih =>
      rw [flatten_expansion hcallee depth _ _ harity]
      have hwords := flattenWords_eq (depth + 1) n hforms fun e he => ih e he (depth + 1)
      simp only [toVariable, isName, if_true, Flatten.bind_apply, Flatten.pure_apply, hwords,
        List.append_nil]
  | binary _ _ ihleft ihright =>
      rw [flatten]
      simp only [Flatten.bind_apply, ihleft, ihright, Flatten.pure_apply, List.append_nil]
  | negate _ ih | group _ ih =>
      rw [flatten]
      simp only [Flatten.bind_apply, ih, Flatten.pure_apply, List.append_nil]

/-- Arguments that are flattened to themselves stay as they are. -/
theorem flattenAll_eq {given : Expr π → Prop} {arguments : List (Expr π)}
    (h : ∀ e ∈ arguments, Flat given e) (depth n : Nat) :
    flattenAll depth arguments n = ⟨arguments, [], n⟩ := by
  induction arguments with
  | nil =>
      rw [flattenAll]
      rfl
  | cons e es ih =>
      rcases List.forall_mem_cons.mp h with ⟨he, hes⟩
      rw [flattenAll]
      simp only [Flatten.bind_apply, he.flatten_eq, ih hes, Flatten.pure_apply, List.append_nil]

/-- As a whole statement, a flat expression is flattened to itself. -/
theorem FlatLine.flatten_eq {given : Expr π → Prop} {e : Expr π} (h : e.FlatLine given)
    (n : Nat) : e.flatten 0 n = ⟨e, [], n⟩ := by
  cases h with
  | value h => exact h.flatten_eq 0 n
  | command hcallee harguments =>
      rw [flatten_command hcallee]
      simp only [Flatten.bind_apply, flattenAll_eq harguments, Flatten.pure_apply, List.append_nil,
        formAt, if_true]

end Expr

/-! ### Flat statements -/

mutual

/-- Statements that are flat. -/
def Stmt.Flat (given : Expr π → Prop) : Stmt π → Prop
  | .comment .. | .blank _ => True
  | .assign _ _ value _ => value.Flat given
  | .run value _ => value.FlatLine given
  | .cond test body _ alternative _ =>
      test.Flat given ∧ Stmt.AllFlat given body ∧ alternative.Flat given

/-- Several statements are flat. -/
def Stmt.AllFlat (given : Expr π → Prop) : List (Stmt π) → Prop
  | [] => True
  | s :: ss => s.Flat given ∧ Stmt.AllFlat given ss

/-- What follows the body of a conditional is flat. -/
def Else.Flat (given : Expr π → Prop) : Else π → Prop
  | .absent => True
  | .block body _ => Stmt.AllFlat given body
  | .elseIf test body _ rest => test.Flat given ∧ Stmt.AllFlat given body ∧ rest.Flat given

end

/-- Several statements are flat exactly if each of them is. -/
theorem Stmt.allFlat_iff {given : Expr π → Prop} {ss : List (Stmt π)} :
    Stmt.AllFlat given ss ↔ ∀ s ∈ ss, s.Flat given := by
  induction ss with
  | nil => simp [Stmt.AllFlat]
  | cons s ss ih => simp [Stmt.AllFlat, ih]

/-- Statements one after the other are flat exactly if both parts are. -/
theorem Stmt.allFlat_append {given : Expr π → Prop} {ss ts : List (Stmt π)} :
    Stmt.AllFlat given (ss ++ ts) ↔ Stmt.AllFlat given ss ∧ Stmt.AllFlat given ts := by
  simp only [Stmt.allFlat_iff, List.forall_mem_append]

mutual

/-- A flat statement is flattened to itself and needs no temporary. -/
theorem Stmt.Flat.flatten_eq {given : Expr π → Prop} :
    ∀ {s : Stmt π}, s.Flat given → ∀ n : Nat, s.flatten n = ([s], n)
  | .comment .., _, n | .blank _, _, n => by rw [Stmt.flatten]
  | .assign _ _ value _, h, n => by
      have hvalue := Expr.Flat.flatten_eq (e := value) h 1 n
      rw [Stmt.flatten, hvalue, List.nil_append]
  | .run value _, h, n => by
      have hvalue := Expr.FlatLine.flatten_eq (e := value) h n
      rw [Stmt.flatten, hvalue, List.nil_append]
  | .cond _ _ _ _ _, ⟨htest, hbody, halternative⟩, n => by
      simp only [Stmt.flatten, htest.flatten_eq, Stmt.AllFlat.flatten_eq hbody,
        Else.Flat.flatten_eq halternative, List.nil_append]

/-- Flat statements are flattened to themselves and need no temporary. -/
theorem Stmt.AllFlat.flatten_eq {given : Expr π → Prop} :
    ∀ {ss : List (Stmt π)}, Stmt.AllFlat given ss → ∀ n : Nat, Stmt.flattenAll n ss = (ss, n)
  | [], _, n => by rw [Stmt.flattenAll]
  | s :: ss, ⟨hs, hss⟩, n => by
      simp only [Stmt.flattenAll, Stmt.Flat.flatten_eq hs, Stmt.AllFlat.flatten_eq hss,
        List.singleton_append]

/-- What follows the body of a conditional is flattened to itself if it is flat. -/
theorem Else.Flat.flatten_eq {given : Expr π → Prop} :
    ∀ {a : Else π}, a.Flat given → ∀ n : Nat, a.flatten n = ⟨a, [], n⟩
  | .absent, _, n => by rw [Else.flatten]
  | .block body _, h, n => by
      have hbody : Stmt.flattenAll n body = (body, n) := Stmt.AllFlat.flatten_eq h n
      rw [Else.flatten, hbody]
  | .elseIf _ _ _ _, ⟨htest, hbody, hrest⟩, n => by
      simp only [Else.flatten, htest.flatten_eq, Stmt.AllFlat.flatten_eq hbody,
        Else.Flat.flatten_eq hrest, List.append_nil]

end

/-! ### Flattening makes flat -/

namespace Flatten

variable {B : Stmt π → Prop} {Q : α → Prop} {R : β → Prop}

/-- However many temporaries are named before, the statements put before satisfy `B`
and the value satisfies `Q`. -/
def Ensures (B : Stmt π → Prop) (Q : α → Prop) (f : Flatten π α) : Prop :=
  ∀ n, (∀ s ∈ (f n).before, B s) ∧ Q (f n).value

/-- A value that is given puts no statement before. -/
theorem Ensures.pure {a : α} (h : Q a) : Ensures B Q (Pure.pure a : Flatten π α) := by
  intro n
  constructor
  · intro s hs
    exact absurd hs List.not_mem_nil
  · exact h

/-- A sequence puts before what its parts put before. -/
theorem Ensures.bind {f : Flatten π α} {g : α → Flatten π β} (hf : Ensures B Q f)
    (hg : ∀ a, Q a → Ensures B R (g a)) : Ensures B R (f >>= g) := by
  intro n
  rcases hf n with ⟨hbefore, hvalue⟩
  rcases hg _ hvalue (f n).temporaries with ⟨hbefore', hvalue'⟩
  constructor
  · rw [bind_apply, List.forall_mem_append]
    exact ⟨hbefore, hbefore'⟩
  · exact hvalue'

/-- What is ensured of the value may be weakened. -/
theorem Ensures.imp {Q' : α → Prop} {f : Flatten π α} (hf : Ensures B Q f)
    (h : ∀ a, Q a → Q' a) : Ensures B Q' f := by
  intro n
  exact ⟨(hf n).1, h _ (hf n).2⟩

/-- A flat value is assigned to a temporary by a flat statement. -/
theorem Ensures.lift {given : Expr π → Prop} {value : Expr π} (h : value.Flat given) (place : π) :
    Ensures (Stmt.Flat given) (fun e => e.isName = true) (Flatten.lift value place) := by
  intro n
  constructor
  · intro s hs
    rw [List.mem_singleton.mp hs, Stmt.Flat]
    exact h
  · rfl

end Flatten

namespace Expr

open Flatten

variable {given : Expr π → Prop}

/-- What an expression inside `depth` others is flattened to. -/
structure Flattened (given : Expr π → Prop) (e : Expr π) (depth : Nat) (v : Expr π) : Prop where
  line : v.FlatLine given
  value : depth ≠ 0 → v.Flat given
  word : e.isWord = true → v.isWord = true

/-- A flat value that is a word wherever the expression is one is what it may be flattened to. -/
theorem Flattened.of_flat {e v : Expr π} {depth : Nat} (h : v.Flat given)
    (hword : e.isWord = true → v.isWord = true) : Flattened given e depth v :=
  ⟨.value h, fun _ => h, hword⟩

/-- Inside another expression, an expression is flattened to a flat one. -/
theorem Flattened.flat {e v : Expr π} {depth : Nat} (h : Flattened given e (depth + 1) v) :
    v.Flat given :=
  h.value (Nat.succ_ne_zero depth)

/-- A call that runs a command is flattened to a call with flat arguments. -/
theorem Flattened.command {callee : String} {cp p : π} {arguments : List (Expr π)}
    (hcallee : Expansion.ofName? callee = none) (h : ∀ e ∈ arguments, Flat given e)
    {e : Expr π} (depth : Nat) :
    Flattened given e depth (.call (formAt depth) callee cp arguments p) := by
  by_cases hdepth : depth = 0
  · rw [formAt, if_pos hdepth]
    exact ⟨.command hcallee h, fun hne => absurd hdepth hne, fun _ => rfl⟩
  · rw [formAt, if_neg hdepth]
    exact .of_flat (.command hcallee h) fun _ => rfl

theorem exists_of_isName {e : Expr π} (h : e.isName = true) : ∃ text p, e = .name text p := by
  cases e with
  | name text p => exact ⟨text, p, rfl⟩
  | literal | call | binary | negate | group => simp [isName] at h

/-- What an expansion is applied to is flattened to a variable. -/
theorem toVariable_flat {e : Expr π} {flat : Flatten π (Expr π)}
    (h : Ensures (Stmt.Flat given) (Flat given) flat) :
    Ensures (Stmt.Flat given) (fun v => v.isName = true) (e.toVariable flat) := by
  unfold toVariable
  split
  next hname => exact .pure hname
  next =>
    apply h.bind
    intro value hvalue
    exact .lift hvalue _

theorem ofName?_echo : Expansion.ofName? "echo" = none := by
  decide

/-- The call of `echo` for a variable is flat. -/
theorem echo_flat {holder : Expr π} (h : holder.isName = true) (depth : Nat) (place : π) :
    (echo depth holder place).Flat given := by
  rcases exists_of_isName h with ⟨text, p, rfl⟩
  apply Flat.command ofName?_echo
  intro e he
  rcases List.mem_cons.mp he with rfl | he
  · exact .literal _ _ _
  · rw [List.mem_singleton.mp he]
    exact .name _ _

/-- A word of an expansion is flattened to a flat word. -/
theorem toWord_flat {e : Expr π} (depth : Nat) {flat : Flatten π (Expr π)}
    (hgiven : e.isNested = true → given e)
    (h : Ensures (Stmt.Flat given) (fun v => v.Flat given ∧ (e.isWord = true → v.isWord = true))
      flat) :
    Ensures (Stmt.Flat given) (fun v => v.Flat given ∧ v.isWord = true) (e.toWord depth flat) := by
  unfold toWord
  split
  · exact .pure ⟨.literal _ _ _, rfl⟩
  · exact .pure ⟨.given (hgiven rfl), rfl⟩
  · exact h.imp fun v hv => ⟨hv.1, hv.2 rfl⟩
  · apply (toVariable_flat (h.imp fun v hv => hv.1)).bind
    intro holder hholder
    exact .pure ⟨echo_flat hholder depth _, rfl⟩

/-- Arguments are flattened to flat ones if each of them is. -/
theorem flattenAll_flat {es : List (Expr π)} {depth : Nat}
    (h : ∀ e ∈ es, Ensures (Stmt.Flat given) (Flat given) (e.flatten depth)) :
    Ensures (Stmt.Flat given) (fun vs => ∀ v ∈ vs, Flat given v) (flattenAll depth es) := by
  induction es with
  | nil =>
      rw [flattenAll]
      exact .pure (List.forall_mem_nil _)
  | cons e es ih =>
      rcases List.forall_mem_cons.mp h with ⟨he, hes⟩
      rw [flattenAll]
      apply he.bind
      intro v hv
      apply (ih hes).bind
      intro vs hvs
      exact .pure (List.forall_mem_cons.mpr ⟨hv, hvs⟩)

/-- The words of an expansion are flattened to as many flat words. -/
theorem flattenWords_flat {es : List (Expr π)} {depth : Nat}
    (h : ∀ e ∈ es, Ensures (Stmt.Flat given) (fun v => v.Flat given ∧ v.isWord = true)
      (e.toWord depth (e.flatten depth))) :
    Ensures (Stmt.Flat given)
      (fun vs => vs.length = es.length ∧ ∀ v ∈ vs, v.Flat given ∧ v.isWord = true)
      (flattenWords depth es) := by
  induction es with
  | nil =>
      rw [flattenWords]
      exact .pure ⟨rfl, List.forall_mem_nil _⟩
  | cons e es ih =>
      rcases List.forall_mem_cons.mp h with ⟨he, hes⟩
      rw [flattenWords]
      apply he.bind
      intro v hv
      apply (ih hes).bind
      rintro vs ⟨hlength, hvs⟩
      apply Ensures.pure
      rw [List.length_cons, List.length_cons, hlength]
      exact ⟨rfl, List.forall_mem_cons.mpr ⟨hv, hvs⟩⟩

/-- If only given calls are nested in several expressions, so it is in each of them. -/
theorem nestsOnly_of_mem {es : List (Expr π)} (h : NestsOnly given (allParts es)) {e : Expr π}
    (he : e ∈ es) : NestsOnly given e.parts := by
  intro e' he'
  exact h e' (mem_allParts.mpr ⟨e, he, he'⟩)

/-- A call of an expansion is flattened to one that takes a variable and words. -/
theorem flatten_expansion_flat {callee : String} {cp p : π} {target : Expr π}
    {words : List (Expr π)} {x : Expansion} {depth : Nat}
    (hcallee : Expansion.ofName? callee = some x) (harity : (target :: words).length = x.arity)
    (hflat : ∀ e ∈ target :: words, Ensures (Stmt.Flat given) (Flattened given e (depth + 1))
      (e.flatten (depth + 1)))
    (hgiven : ∀ e ∈ words, e.isNested = true → given e) :
    Ensures (Stmt.Flat given) (fun v => v.Flat given ∧ v.isWord = true)
      ((Expr.call .plain callee cp (target :: words) p).flatten depth) := by
  rcases List.forall_mem_cons.mp hflat with ⟨htarget, hflat⟩
  have hwords : ∀ e ∈ words, Ensures (Stmt.Flat given) (fun v => v.Flat given ∧ v.isWord = true)
      (e.toWord (depth + 1) (e.flatten (depth + 1))) := by
    intro e he
    apply toWord_flat _ (hgiven e he)
    exact (hflat e he).imp fun v hv => ⟨hv.flat, hv.word⟩
  rw [flatten_expansion hcallee depth cp p harity]
  apply (toVariable_flat (htarget.imp fun v => Flattened.flat)).bind
  intro t ht
  rcases exists_of_isName ht with ⟨text, tp, rfl⟩
  apply (flattenWords_flat hwords).bind
  rintro vs ⟨hlength, hvs⟩
  rw [List.length_cons, ← hlength] at harity
  apply Ensures.pure
  constructor
  · exact .expansion hcallee harity (fun v hv => (hvs v hv).2) fun v hv => (hvs v hv).1
  · rfl

/-- Flattening makes an expression flat, and so it makes the assignments that it puts
before. -/
theorem flatten_flat {e : Expr π} (h : NestsOnly given e.parts) (depth : Nat) :
    Ensures (Stmt.Flat given) (Flattened given e depth) (e.flatten depth) := by
  induction e using Expr.induction generalizing depth with
  | literal kind text p =>
      rw [flatten]
      exact .pure (.of_flat (.literal _ _ _) fun _ => rfl)
  | name text p =>
      rw [flatten]
      exact .pure (.of_flat (.name _ _) (by simp [isWord]))
  | call form callee cp arguments p ih =>
      rcases List.forall_mem_cons.mp h with ⟨hself, harguments⟩
      have hflat : ∀ e ∈ arguments, Ensures (Stmt.Flat given) (Flattened given e (depth + 1))
          (e.flatten (depth + 1)) :=
        fun e he => ih e he (nestsOnly_of_mem harguments he) (depth + 1)
      cases form with
      | nested d =>
          rw [flatten]
          exact .pure (.of_flat (.given (hself rfl)) fun _ => rfl)
      | plain =>
          cases hcallee : Expansion.ofName? callee with
          | none =>
              rw [flatten_command hcallee]
              apply (flattenAll_flat fun e he => (hflat e he).imp fun v => Flattened.flat).bind
              intro vs hvs
              exact .pure (.command hcallee hvs depth)
          | some x =>
              by_cases harity : arguments.length = x.arity
              · cases arguments with
                | nil => exact absurd harity.symm x.arity_ne_zero
                | cons target words =>
                    have hnested := fun e he =>
                      nestsOnly_of_mem harguments (List.mem_cons_of_mem target he) e
                        e.mem_parts_self
                    apply (flatten_expansion_flat hcallee harity hflat hnested).imp
                    rintro v ⟨hv, hword⟩
                    exact .of_flat hv fun _ => hword
              · rw [flatten_misused hcallee depth cp p harity]
                exact .pure (.of_flat (.misused hcallee harity) fun _ => rfl)
  | binary op left right p ihleft ihright =>
      have hparts := (List.forall_mem_cons.mp h).2
      rcases List.forall_mem_append.mp hparts with ⟨hleft, hright⟩
      rw [flatten]
      apply (ihleft hleft (depth + 1)).bind
      intro l hl
      apply (ihright hright (depth + 1)).bind
      intro r hr
      exact .pure (.of_flat (.binary hl.flat hr.flat) (by simp [isWord]))
  | negate inner p ih =>
      rw [flatten]
      apply (ih (List.forall_mem_cons.mp h).2 (depth + 1)).bind
      intro v hv
      exact .pure (.of_flat (.negate hv.flat) (by simp [isWord]))
  | group inner p ih =>
      rw [flatten]
      apply (ih (List.forall_mem_cons.mp h).2 (depth + 1)).bind
      intro v hv
      exact .pure (.of_flat (.group hv.flat) (by simp [isWord]))

end Expr

mutual

/-- A statement is flattened to flat statements. -/
theorem Stmt.flatten_flat {given : Expr π → Prop} : ∀ (s : Stmt π) (n : Nat),
    Expr.NestsOnly given s.expressions → Stmt.AllFlat given (s.flatten n).1
  | .comment .., _, _ | .blank _, _, _ => ⟨trivial, trivial⟩
  | .assign _ _ value _, n, h => by
      have hvalue := Expr.flatten_flat (e := value) h 1 n
      rw [Stmt.flatten, Stmt.allFlat_append, Stmt.allFlat_iff]
      exact ⟨hvalue.1, hvalue.2.flat, trivial⟩
  | .run value _, n, h => by
      have hvalue := Expr.flatten_flat (e := value) h 0 n
      rw [Stmt.flatten, Stmt.allFlat_append, Stmt.allFlat_iff]
      exact ⟨hvalue.1, hvalue.2.line, trivial⟩
  | .cond test body bp alternative p, n, h => by
      rcases List.forall_mem_append.mp h with ⟨htest, h⟩
      rcases List.forall_mem_append.mp h with ⟨hbody, halternative⟩
      have htest := Expr.flatten_flat htest 1 n
      have hbody := Stmt.flattenAll_flat body (test.flatten 1 n).temporaries hbody
      have halternative := Else.flatten_flat alternative
        (Stmt.flattenAll (test.flatten 1 n).temporaries body).2 halternative
      rw [Stmt.flatten, Stmt.allFlat_append, Stmt.allFlat_append]
      exact ⟨⟨Stmt.allFlat_iff.mpr htest.1, Stmt.allFlat_iff.mpr halternative.1⟩,
        ⟨htest.2.flat, hbody, halternative.2⟩, trivial⟩

/-- Statements are flattened to flat statements. -/
theorem Stmt.flattenAll_flat {given : Expr π → Prop} : ∀ (ss : List (Stmt π)) (n : Nat),
    Expr.NestsOnly given (Stmt.allExpressions ss) → Stmt.AllFlat given (Stmt.flattenAll n ss).1
  | [], _, _ => trivial
  | s :: ss, n, h => by
      rcases List.forall_mem_append.mp h with ⟨hs, hss⟩
      rw [Stmt.flattenAll, Stmt.allFlat_append]
      exact ⟨Stmt.flatten_flat s n hs, Stmt.flattenAll_flat ss (s.flatten n).2 hss⟩

/-- What follows the body of a conditional is flattened to a flat alternative. -/
theorem Else.flatten_flat {given : Expr π → Prop} : ∀ (a : Else π) (n : Nat),
    Expr.NestsOnly given a.expressions →
      (∀ s ∈ (a.flatten n).before, s.Flat given) ∧ (a.flatten n).value.Flat given
  | .absent, _, _ => ⟨List.forall_mem_nil _, trivial⟩
  | .block body _, n, h => ⟨List.forall_mem_nil _, Stmt.flattenAll_flat body n h⟩
  | .elseIf test body _ rest, n, h => by
      rcases List.forall_mem_append.mp h with ⟨htest, h⟩
      rcases List.forall_mem_append.mp h with ⟨hbody, hrest⟩
      have htest := Expr.flatten_flat htest 1 n
      have hbody := Stmt.flattenAll_flat body (test.flatten 1 n).temporaries hbody
      have hrest := Else.flatten_flat rest
        (Stmt.flattenAll (test.flatten 1 n).temporaries body).2 hrest
      rw [Else.flatten]
      exact ⟨List.forall_mem_append.mpr ⟨htest.1, hrest.1⟩, htest.2.flat, hbody, hrest.2⟩

end

namespace Script

/-- Flattening a flattened script changes nothing and names no temporary, however many
were named before either pass. -/
theorem flattenFrom_flattenFrom (s : Script π) (m n : Nat) :
    (s.flattenFrom m).1.flattenFrom n = ((s.flattenFrom m).1, n) := by
  have hflat : Stmt.AllFlat (fun _ => True) (Stmt.flattenAll m s.statements).1 :=
    Stmt.flattenAll_flat s.statements m fun _ _ _ => trivial
  have hagain := hflat.flatten_eq n
  simp only [flattenFrom, hagain]

end Script
end Shellward
