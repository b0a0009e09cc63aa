import Shellward.Proofs.Script.Meaning

/-!
# Flattening keeps the meaning of scripts

A flattened script records what the script itself records, once the assignments to
temporaries are dropped, and leaves every other variable with the same value.

The assignments put before a statement write only temporaries with numbers that are
not in use yet.  So whatever a part of the statement was flattened to keeps its value
until the statement itself runs.

Main results:

- Theorem `Expr.flatten_sound`: an expression and what it is flattened to have the
  same value, after the assignments put before.
- Theorem `Stmt.flattenAll_simulates`: statements without temporaries are simulated
  by what they are flattened to.
- Theorem `Script.flatten_records_same`: the same for every script that is read.
-/

namespace Shellward

variable {π α β V : Type}

/-! ### The names of temporaries -/

namespace Flatten

/-- The name of a temporary is `_TMP` and then the digits of its number. -/
theorem toList_temporary (number : Nat) :
    (temporary number).toList = '_' :: 'T' :: 'M' :: 'P' :: Nat.toDigits 10 number := by
  simp [temporary, Nat.toString_eq_repr, Nat.toList_repr]

/-- Whether a name is that of a temporary. -/
def isTemporary (name : String) : Bool :=
  name == temporary (Nat.ofDigitChars 10 (name.toList.drop 4) 0)

/-- The name that a temporary is given is recognised as one. -/
theorem isTemporary_temporary (number : Nat) : isTemporary (temporary number) = true := by
  have hdigits : (temporary number).toList.drop 4 = Nat.toDigits 10 number := by
    rw [toList_temporary]
    rfl
  rw [isTemporary, hdigits, Nat.ofDigitChars_ten_toDigits, beq_self_eq_true]

/-- The names of temporaries are those that numbers are given. -/
theorem isTemporary_iff {name : String} :
    isTemporary name = true ↔ ∃ number, name = temporary number := by
  constructor
  · intro h
    exact ⟨_, beq_iff_eq.mp h⟩
  · rintro ⟨number, rfl⟩
    exact isTemporary_temporary number

/-- Different temporaries have different names. -/
theorem temporary_injective {m n : Nat} (h : temporary m = temporary n) : m = n := by
  have hlists : Nat.toDigits 10 m = Nat.toDigits 10 n := by
    have hchars := congrArg String.toList h
    simpa [toList_temporary] using hchars
  rw [← Nat.ofDigitChars_ten_toDigits (n := m), hlists, Nat.ofDigitChars_ten_toDigits]

/-- A name that begins with a letter is no temporary. -/
theorem isTemporary_of_beginsWithLetter {name : String} (h : Text.BeginsWithLetter name) :
    isTemporary name = false := by
  rw [Bool.eq_false_iff]
  intro htemporary
  rcases isTemporary_iff.mp htemporary with ⟨number, rfl⟩
  rcases h with ⟨c, hhead, halpha⟩
  rw [toList_temporary] at hhead
  simp only [List.head?_cons, Option.some.injEq] at hhead
  rw [← hhead] at halpha
  exact absurd halpha (by decide)

end Flatten

open Flatten

/-! ### Runs up to temporaries -/

/-- Whether an event is an assignment to a temporary. -/
def Event.isTemporary : Event V → Bool
  | .assigned name _ => Flatten.isTemporary name
  | .ran _ | .took _ => false

@[simp]
theorem Event.isTemporary_assigned (name : String) (value : V) :
    (Event.assigned name value).isTemporary = Flatten.isTemporary name :=
  rfl

@[simp]
theorem Event.isTemporary_ran (value : V) : (Event.ran value).isTemporary = false :=
  rfl

@[simp]
theorem Event.isTemporary_took (branch : Nat) :
    (Event.took branch : Event V).isTemporary = false :=
  rfl

/-- What a run records, without the assignments to temporaries. -/
def Run.visible (r : Run V) : List (Event V) :=
  r.events.filter fun event => !event.isTemporary

/-- Two environments agree on all variables but temporaries. -/
def Env.Agree (env env' : Env V) : Prop :=
  ∀ name, Flatten.isTemporary name = false → env name = env' name

/-- Besides assignments to temporaries, a run records what another one records, and
it leaves the other variables as that one does. -/
structure Run.Simulates (r r' : Run V) : Prop where
  events : r.visible = r'.events
  env : r'.env.Agree r.env

/-- A name that is no temporary, or a temporary among the first `m`. -/
def Held (m : Nat) (name : String) : Prop :=
  ∀ number, name = temporary number → number ≤ m

/-- Two environments agree on the names that are held after `m` temporaries. -/
def Env.AgreeHeld (m : Nat) (env env' : Env V) : Prop :=
  ∀ name, Held m name → env name = env' name

/-- What is held after some temporaries is held after more. -/
theorem Held.mono {m n : Nat} {name : String} (h : Held m name) (hle : m ≤ n) :
    Held n name := by
  intro number hname
  exact Nat.le_trans (h number hname) hle

/-- A name that is no temporary is always held. -/
theorem held_of_not_temporary {m : Nat} {name : String} (h : isTemporary name = false) :
    Held m name := by
  rintro number rfl
  rw [isTemporary_temporary] at h
  exact absurd h (by simp)

/-- A temporary is held once it is named. -/
theorem held_temporary {m number : Nat} (h : number ≤ m) : Held m (temporary number) := by
  intro other hname
  rw [← temporary_injective hname]
  exact h

/-- Environments that agree on what is held agree on all variables but temporaries. -/
theorem Env.AgreeHeld.agree {m : Nat} {env env' : Env V} (h : env.AgreeHeld m env') :
    env.Agree env' := by
  intro name hname
  exact h name (held_of_not_temporary hname)

/-- Environments that agree after some temporaries agree after fewer. -/
theorem Env.AgreeHeld.weaken {m n : Nat} {env env' : Env V} (h : env.AgreeHeld n env')
    (hle : m ≤ n) : env.AgreeHeld m env' := by
  intro name hname
  exact h name (hname.mono hle)

theorem Env.Agree.symm {env env' : Env V} (h : env.Agree env') : env'.Agree env := by
  intro name hname
  exact (h name hname).symm

theorem Env.Agree.trans {env env' env'' : Env V} (h : env.Agree env') (h' : env'.Agree env'') :
    env.Agree env'' := by
  intro name hname
  rw [h name hname, h' name hname]

/-- Environments still agree after the same assignment to both. -/
theorem Env.Agree.set {env env' : Env V} (h : env.Agree env') (name : String) (value : V) :
    (env.set name value).Agree (env'.set name value) := by
  intro other hother
  simp only [Env.set, h other hother]

/-! ### Sound flattening -/

section Soundness

variable {I : Interpretation V}

/-- After `m` temporaries a value satisfies `Q`, whatever later temporaries hold. -/
def Holds (m : Nat) (env : Env V) (Q : Env V → α → Prop) (a : α) : Prop :=
  ∀ env' : Env V, env'.AgreeHeld m env → Q env' a

/-- Statements that record nothing but assignments to temporaries. -/
def Stmt.Hidden (I : Interpretation V) (env : Env V) (ss : List (Stmt π)) : Prop :=
  ∀ event ∈ (Stmt.execAll I env ss).events, event.isTemporary = true

/-- Hidden statements may follow one another. -/
theorem Stmt.Hidden.append {env : Env V} {ss ts : List (Stmt π)} (hss : Stmt.Hidden I env ss)
    (hts : Stmt.Hidden I (Stmt.execAll I env ss).env ts) : Stmt.Hidden I env (ss ++ ts) := by
  intro event hevent
  rw [Stmt.execAll_append, List.mem_append] at hevent
  rcases hevent with hevent | hevent
  · exact hss event hevent
  · exact hts event hevent

/-- Flattening a part of a statement after `m` temporaries: the assignments it puts
before write only later temporaries, and after them its value satisfies `Q`. -/
structure Flatten.Sound (I : Interpretation V) (m : Nat) (env : Env V) (f : Flatten π α)
    (Q : Env V → α → Prop) : Prop where
  counts : m ≤ (f m).temporaries
  hidden : Stmt.Hidden I env (f m).before
  keeps : (Stmt.execAll I env (f m).before).env.AgreeHeld m env
  value : Holds (f m).temporaries (Stmt.execAll I env (f m).before).env Q (f m).value

/-- What holds after some temporaries still holds after more of them. -/
theorem Holds.mono {m n : Nat} {env env' : Env V} {Q : Env V → α → Prop} {a : α}
    (h : Holds m env Q a) (hle : m ≤ n) (hkeeps : env'.AgreeHeld m env) : Holds n env' Q a := by
  intro env'' hagree
  apply h
  intro name hname
  rw [hagree name (hname.mono hle), hkeeps name hname]

/-- What holds whatever later temporaries hold, holds as they are. -/
theorem Holds.self {m : Nat} {env : Env V} {Q : Env V → α → Prop} {a : α}
    (h : Holds m env Q a) : Q env a :=
  h env fun _ _ => rfl

namespace Flatten

variable {m : Nat} {env : Env V} {Q : Env V → α → Prop} {R : Env V → β → Prop}

/-- A value that is given needs no assignment. -/
theorem Sound.pure {a : α} (h : Holds m env Q a) :
    Sound I m env (Pure.pure a : Flatten π α) Q := by
  constructor
  · exact Nat.le_refl m
  · intro event hevent
    simp [Stmt.execAll] at hevent
  · intro name _
    simp [Stmt.execAll]
  · simpa [Stmt.execAll] using h

/-- Flattening one part and then another is sound if the second is sound after the
assignments of the first. -/
theorem Sound.bind {f : Flatten π α} {g : α → Flatten π β} (hf : Sound I m env f Q)
    (hg : ∀ a n env', m ≤ n → env'.AgreeHeld m env → Holds n env' Q a →
      Sound I n env' (g a) R) :
    Sound I m env (f >>= g) R := by
  have hnext := hg _ _ _ hf.counts hf.keeps hf.value
  constructor
  · exact Nat.le_trans hf.counts hnext.counts
  · exact hf.hidden.append hnext.hidden
  · intro name hname
    simp only [bind_apply, Stmt.execAll_append]
    rw [hnext.keeps name (hname.mono hf.counts), hf.keeps name hname]
  · simpa only [bind_apply, Stmt.execAll_append] using hnext.value

/-- A fresh temporary takes the value assigned to it. -/
theorem Sound.lift {value : Expr π} {place : π} {x : V}
    (h : Holds m env (fun env' e => e.eval I env' = x) value) :
    Sound I m env (Flatten.lift value place) (fun env' e => e.eval I env' = x) := by
  have hrun : Stmt.execAll I env (Flatten.lift value place m).before =
      ⟨[.assigned (temporary (m + 1)) x], env.set (temporary (m + 1)) x⟩ := by
    simp [Flatten.lift, Stmt.execAll, Stmt.exec, h.self]
  constructor
  · exact Nat.le_succ m
  · intro event hevent
    rw [hrun, List.mem_singleton] at hevent
    rw [hevent]
    exact isTemporary_temporary (m + 1)
  · intro name hname
    rw [hrun]
    apply Env.set_of_ne
    intro heq
    have hle := hname _ heq
    omega
  · intro env' hagree
    rw [hrun] at hagree
    have htemporary := hagree _ (held_temporary (Nat.le_refl (m + 1)))
    exact htemporary.trans (Env.set_self env _ x)

end Flatten

/-! ### Expressions -/

namespace Expr

/-- An expression without temporaries. -/
abbrev Visible (e : Expr π) : Prop :=
  e.NamesIn fun name => isTemporary name = false

/-- Several expressions without temporaries. -/
abbrev AllVisible (es : List (Expr π)) : Prop :=
  NamesInAll (fun name => isTemporary name = false) es

/-- Having the value `x`. -/
abbrev Means (I : Interpretation V) (x : V) (env : Env V) (e : Expr π) : Prop :=
  e.eval I env = x

/-- Having the values `xs`. -/
abbrev MeanAll (I : Interpretation V) (xs : List V) (env : Env V) (es : List (Expr π)) : Prop :=
  evalAll I env es = xs

/-- An expression without temporaries keeps its value. -/
theorem Visible.holds {e : Expr π} (h : e.Visible) {m : Nat} {env env' : Env V}
    (hagree : env.Agree env') : Holds m env' (Means I (e.eval I env)) e := by
  intro env'' hheld
  apply eval_congr I _ e h
  intro name hname
  rw [hagree name hname, hheld.agree name hname]

variable {m : Nat} {env env' : Env V} {e : Expr π} {flat : Flatten π (Expr π)}

/-- What an expansion is applied to keeps its value in a variable. -/
theorem toVariable_sound (he : e.Visible) (hagree : env.Agree env')
    (hflat : Flatten.Sound I m env' flat (Means I (e.eval I env))) :
    Flatten.Sound I m env' (e.toVariable flat) (Means I (e.eval I env)) := by
  unfold toVariable
  split
  · exact .pure (he.holds hagree)
  · apply hflat.bind
    intro value n env'' _ _ hvalue
    exact .lift hvalue

/-- The call of `echo` that stands for a value has that value. -/
theorem echo_holds (hecho : I.EchoesValue) {x : V} (h : Holds m env (Means I x) e)
    (depth : Nat) (place : π) :
    Holds m env (Means I x) (echo depth e place) := by
  intro env' hheld
  simp only [Means, echo, eval, evalAll]
  rw [hecho]
  exact h env' hheld

/-- A word of an expansion keeps its value. -/
theorem toWord_sound (hecho : I.EchoesValue) (depth : Nat) (he : e.Visible)
    (hagree : env.Agree env')
    (hflat : Flatten.Sound I m env' flat (Means I (e.eval I env))) :
    Flatten.Sound I m env' (e.toWord depth flat) (Means I (e.eval I env)) := by
  unfold toWord
  split
  · exact .pure (he.holds hagree)
  · exact .pure (he.holds hagree)
  · exact hflat
  · apply (toVariable_sound he hagree hflat).bind
    intro holder n env'' _ _ hholder
    exact .pure (echo_holds hecho hholder depth _)

/-- A call that is no expansion has its arguments flattened. -/
theorem flatten_command {callee : String} (h : Expansion.ofName? callee = none) (depth : Nat)
    (cp p : π) (arguments : List (Expr π)) :
    (Expr.call .plain callee cp arguments p).flatten depth = (do
      let arguments ← flattenAll (depth + 1) arguments
      pure (.call (formAt depth) callee cp arguments p)) := by
  rw [flatten.eq_def]
  simp only [h]

/-- An expansion has its first argument made a variable and the others words. -/
theorem flatten_expansion {callee : String} {x : Expansion}
    (h : Expansion.ofName? callee = some x) (depth : Nat) (cp p : π) {target : Expr π}
    {words : List (Expr π)} (harity : (target :: words).length = x.arity) :
    (Expr.call .plain callee cp (target :: words) p).flatten depth = (do
      let target ← target.toVariable (target.flatten (depth + 1))
      let words ← flattenWords (depth + 1) words
      pure (.call .plain callee cp (target :: words) p)) := by
  rw [flatten.eq_def]
  simp only [h, harity, if_true]

/-- An expansion with a wrong number of arguments is left as it is. -/
theorem flatten_misused {callee : String} {x : Expansion}
    (h : Expansion.ofName? callee = some x) (depth : Nat) (cp p : π)
    {arguments : List (Expr π)} (harity : arguments.length ≠ x.arity) :
    (Expr.call .plain callee cp arguments p).flatten depth =
      pure (.call .plain callee cp arguments p) := by
  rw [flatten.eq_def]
  simp only [h, harity, if_false]

/-- An expansion without arguments is left as it is. -/
theorem flatten_noArguments {callee : String} {x : Expansion}
    (h : Expansion.ofName? callee = some x) (depth : Nat) (cp p : π) :
    (Expr.call .plain callee cp [] p).flatten depth = pure (.call .plain callee cp [] p) := by
  rw [flatten.eq_def]
  simp only [h]
  split <;> rfl

/-- A call is flattened as a command or as an expansion with arguments, or left as it is. -/
theorem flatten_call (depth : Nat) (callee : String) (cp : π) (arguments : List (Expr π))
    (p : π) :
    (Expr.call .plain callee cp arguments p).flatten depth = (do
        let arguments ← flattenAll (depth + 1) arguments
        pure (.call (formAt depth) callee cp arguments p)) ∨
      (∃ target words, arguments = target :: words ∧
        (Expr.call .plain callee cp arguments p).flatten depth = (do
          let target ← target.toVariable (target.flatten (depth + 1))
          let words ← flattenWords (depth + 1) words
          pure (.call .plain callee cp (target :: words) p))) ∨
      (Expr.call .plain callee cp arguments p).flatten depth =
        pure (.call .plain callee cp arguments p) := by
  cases hcallee : Expansion.ofName? callee with
  | none => exact .inl (flatten_command hcallee depth cp p arguments)
  | some x =>
      by_cases harity : arguments.length = x.arity
      · cases arguments with
        | nil => exact .inr (.inr (flatten_noArguments hcallee depth cp p))
        | cons target words =>
            exact .inr (.inl ⟨target, words, rfl, flatten_expansion hcallee depth cp p harity⟩)
      · exact .inr (.inr (flatten_misused hcallee depth cp p harity))

mutual

/-- After the assignments put before, what an expression is flattened to has the
value of the expression. -/
theorem flatten_sound (hecho : I.EchoesValue) (env : Env V) :
    ∀ (e : Expr π) (depth : Nat) {m : Nat} {env' : Env V}, e.Visible → env.Agree env' →
      Flatten.Sound I m env' (e.flatten depth) (Means I (e.eval I env))
  | .literal kind text p, depth, m, env', he, hagree => by
      rw [flatten]
      exact .pure (he.holds hagree)
  | .name text p, depth, m, env', he, hagree => by
      rw [flatten]
      exact .pure (he.holds hagree)
  | .call (.nested d) callee cp arguments p, depth, m, env', he, hagree => by
      rw [flatten]
      exact .pure (he.holds hagree)
  | .call .plain callee cp arguments p, depth, m, env', he, hagree => by
      cases hcallee : Expansion.ofName? callee with
      | none =>
          rw [flatten_command hcallee]
          apply (flattenAll_sound hecho env arguments (depth + 1) he hagree).bind
          intro es n env₁ _ _ hes
          apply Flatten.Sound.pure
          intro env₂ hheld
          rw [Means, eval, eval, hes env₂ hheld]
      | some x =>
          by_cases harity : arguments.length = x.arity
          · cases arguments with
            | nil =>
                rw [flatten.eq_def]
                simp only [hcallee, harity, if_true]
                exact .pure (he.holds hagree)
            | cons target words =>
                rw [flatten_expansion hcallee depth cp p harity]
                have hflat := flatten_sound hecho env target (depth + 1) (m := m) he.1 hagree
                apply (toVariable_sound he.1 hagree hflat).bind
                intro t n env₁ _ hkeeps ht
                apply (flattenWords_sound hecho env words (depth + 1) he.2
                  (hagree.trans hkeeps.agree.symm)).bind
                intro ws k env₂ hle hkeeps' hws
                apply Flatten.Sound.pure
                intro env₃ hheld
                rw [Means, eval, eval, evalAll, evalAll, ht.mono hle hkeeps' env₃ hheld,
                  hws env₃ hheld]
          · rw [flatten_misused hcallee depth cp p harity]
            exact .pure (he.holds hagree)
  | .binary op left right p, depth, m, env', he, hagree => by
      rw [flatten]
      apply (flatten_sound hecho env left (depth + 1) he.1 hagree).bind
      intro l n env₁ _ hkeeps hl
      apply (flatten_sound hecho env right (depth + 1) he.2
        (hagree.trans hkeeps.agree.symm)).bind
      intro r k env₂ hle hkeeps' hr
      apply Flatten.Sound.pure
      intro env₃ hheld
      rw [Means, eval, eval, hl.mono hle hkeeps' env₃ hheld, hr env₃ hheld]
  | .negate inner p, depth, m, env', he, hagree => by
      rw [flatten]
      apply (flatten_sound hecho env inner (depth + 1) he hagree).bind
      intro i n env₁ _ _ hi
      apply Flatten.Sound.pure
      intro env₂ hheld
      rw [Means, eval, eval, hi env₂ hheld]
  | .group inner p, depth, m, env', he, hagree => by
      rw [flatten]
      apply (flatten_sound hecho env inner (depth + 1) he hagree).bind
      intro i n env₁ _ _ hi
      exact .pure hi

/-- Arguments keep their values. -/
theorem flattenAll_sound (hecho : I.EchoesValue) (env : Env V) :
    ∀ (es : List (Expr π)) (depth : Nat) {m : Nat} {env' : Env V}, AllVisible es →
      env.Agree env' →
      Flatten.Sound I m env' (flattenAll depth es) (MeanAll I (evalAll I env es))
  | [], depth, m, env', _, _ => by
      rw [flattenAll]
      exact .pure fun _ _ => rfl
  | e :: es, depth, m, env', hes, hagree => by
      rw [flattenAll]
      apply (flatten_sound hecho env e depth hes.1 hagree).bind
      intro e' n env₁ _ hkeeps he'
      apply (flattenAll_sound hecho env es depth hes.2 (hagree.trans hkeeps.agree.symm)).bind
      intro es' k env₂ hle hkeeps' hes'
      apply Flatten.Sound.pure
      intro env₃ hheld
      rw [MeanAll, evalAll, evalAll, he'.mono hle hkeeps' env₃ hheld, hes' env₃ hheld]

/-- The words of an expansion keep their values. -/
theorem flattenWords_sound (hecho : I.EchoesValue) (env : Env V) :
    ∀ (es : List (Expr π)) (depth : Nat) {m : Nat} {env' : Env V}, AllVisible es →
      env.Agree env' →
      Flatten.Sound I m env' (flattenWords depth es) (MeanAll I (evalAll I env es))
  | [], depth, m, env', _, _ => by
      rw [flattenWords]
      exact .pure fun _ _ => rfl
  | e :: es, depth, m, env', hes, hagree => by
      rw [flattenWords]
      have hflat := flatten_sound hecho env e depth (m := m) hes.1 hagree
      apply (toWord_sound hecho depth hes.1 hagree hflat).bind
      intro e' n env₁ _ hkeeps he'
      apply (flattenWords_sound hecho env es depth hes.2 (hagree.trans hkeeps.agree.symm)).bind
      intro es' k env₂ hle hkeeps' hes'
      apply Flatten.Sound.pure
      intro env₃ hheld
      rw [MeanAll, evalAll, evalAll, he'.mono hle hkeeps' env₃ hheld, hes' env₃ hheld]

end

end Expr

/-! ### Statements -/

namespace Run

/-- Runs that record the same still do so after the same branch is taken. -/
theorem Simulates.after {r r' : Run V} (h : r.Simulates r') (branch : Nat) :
    (r.after (.took branch)).Simulates (r'.after (.took branch)) := by
  constructor
  · have hevents := h.events
    simp only [visible] at hevents
    simp [visible, Run.after, hevents]
  · exact h.env

/-- One run after another simulates the parts that each of them simulates. -/
theorem Simulates.append {r s r' s' : Run V} (h : r.Simulates r') (h' : s.Simulates s') :
    Run.Simulates ⟨r.events ++ s.events, s.env⟩ ⟨r'.events ++ s'.events, s'.env⟩ := by
  constructor
  · have hfirst := h.events
    have hsecond := h'.events
    simp only [visible] at hfirst hsecond
    simp [visible, hfirst, hsecond]
  · exact h'.env

end Run

namespace Stmt

/-- A statement without temporaries. -/
abbrev Visible (s : Stmt π) : Prop :=
  s.NamesIn fun name => isTemporary name = false

/-- Several statements without temporaries. -/
abbrev AllVisible (ss : List (Stmt π)) : Prop :=
  NamesInAll (fun name => isTemporary name = false) ss

/-- Assignments to temporaries before a statement do not show. -/
theorem simulates_of_hidden {env : Env V} {before : List (Stmt π)} {s : Stmt π} {r : Run V}
    (hhidden : Hidden I env before)
    (h : (s.exec I (execAll I env before).env).Simulates r) :
    (execAll I env (before ++ [s])).Simulates r := by
  have hnone : (execAll I env before).events.filter (fun event => !event.isTemporary) = [] := by
    rw [List.filter_eq_nil_iff]
    intro event hevent
    simp [hhidden event hevent]
  have hevents := h.events
  simp only [Run.visible] at hevents
  constructor
  · simp [Run.visible, execAll_append, execAll, hnone, hevents]
  · simpa [execAll_append, execAll] using h.env

end Stmt

/-- An alternative without temporaries. -/
abbrev Else.Visible (a : Else π) : Prop :=
  a.NamesIn fun name => isTemporary name = false

/-- Running like `alternative` in the environment `env`. -/
def Else.RunsLike (I : Interpretation V) (env : Env V) (alternative : Else π) (env' : Env V)
    (a : Else π) : Prop :=
  ∀ branch, (a.exec I env' branch).Simulates (alternative.exec I env branch)

mutual

/-- A statement without temporaries is simulated by what it is flattened to. -/
theorem Stmt.flatten_simulates (hecho : I.EchoesValue) :
    ∀ (s : Stmt π) (n : Nat) {env env' : Env V}, s.Visible → env.Agree env' →
      n ≤ (s.flatten n).2 ∧ (Stmt.execAll I env' (s.flatten n).1).Simulates (s.exec I env)
  | .comment text p, n, env, env', _, hagree => by
      refine ⟨Nat.le_refl n, ?_, hagree⟩
      rfl
  | .blank p, n, env, env', _, hagree => by
      refine ⟨Nat.le_refl n, ?_, hagree⟩
      rfl
  | .assign target tp value p, n, env, env', hs, hagree => by
      have hvalue := Expr.flatten_sound hecho env value 1 (m := n) hs.2 hagree
      refine ⟨hvalue.counts, ?_⟩
      rw [Stmt.flatten]
      apply Stmt.simulates_of_hidden hvalue.hidden
      have htarget : (!Flatten.isTemporary target) = true := by
        rw [hs.1]
        rfl
      have heval := hvalue.value.self
      have hkeeps := hagree.trans hvalue.keeps.agree.symm
      simp only [Expr.Means] at heval
      constructor
      · simp [Run.visible, Stmt.exec, heval, htarget]
      · simp only [Stmt.exec, heval]
        exact hkeeps.set target _
  | .run value p, n, env, env', hs, hagree => by
      have hvalue := Expr.flatten_sound hecho env value 0 (m := n) hs hagree
      refine ⟨hvalue.counts, ?_⟩
      rw [Stmt.flatten]
      apply Stmt.simulates_of_hidden hvalue.hidden
      have heval := hvalue.value.self
      simp only [Expr.Means] at heval
      constructor
      · simp [Run.visible, Stmt.exec, heval]
      · exact hagree.trans hvalue.keeps.agree.symm
  | .cond test body bp alternative p, n, env, env', hs, hagree => by
      have htest := Expr.flatten_sound hecho env test 1 (m := n) hs.1 hagree
      have hagree₁ := hagree.trans htest.keeps.agree.symm
      have hcount := (Stmt.flattenAll_simulates hecho body (test.flatten 1 n).temporaries hs.2.1
        hagree).1
      have halternative := Else.flatten_sound hecho env alternative
        (Stmt.flattenAll (test.flatten 1 n).temporaries body).2 hs.2.2 hagree₁
      have hagree₂ := hagree₁.trans halternative.keeps.agree.symm
      -- The assignments for the alternative leave those for the test as they were.
      have heval := htest.value.mono hcount (halternative.keeps.weaken hcount)
      have hbody := (Stmt.flattenAll_simulates hecho body (test.flatten 1 n).temporaries hs.2.1
        hagree₂).2
      refine ⟨?_, ?_⟩
      · exact Nat.le_trans htest.counts (Nat.le_trans hcount halternative.counts)
      · rw [Stmt.flatten]
        apply Stmt.simulates_of_hidden (htest.hidden.append halternative.hidden)
        simp only [Stmt.execAll_append]
        rw [Stmt.exec, Stmt.exec, heval.self]
        by_cases htruthy : I.truthy (test.eval I env) = true
        · rw [if_pos htruthy, if_pos htruthy]
          exact hbody.after 0
        · rw [if_neg htruthy, if_neg htruthy]
          exact halternative.value.self 1

/-- Statements without temporaries are simulated by what they are flattened to. -/
theorem Stmt.flattenAll_simulates (hecho : I.EchoesValue) :
    ∀ (ss : List (Stmt π)) (n : Nat) {env env' : Env V}, Stmt.AllVisible ss → env.Agree env' →
      n ≤ (Stmt.flattenAll n ss).2 ∧
        (Stmt.execAll I env' (Stmt.flattenAll n ss).1).Simulates (Stmt.execAll I env ss)
  | [], n, env, env', _, hagree => by
      refine ⟨Nat.le_refl n, ?_, hagree⟩
      rfl
  | s :: ss, n, env, env', hss, hagree => by
      rcases Stmt.flatten_simulates hecho s n hss.1 hagree with ⟨hcount, hfirst⟩
      rcases Stmt.flattenAll_simulates hecho ss (s.flatten n).2 hss.2 hfirst.env with
        ⟨hcount', hrest⟩
      refine ⟨Nat.le_trans hcount hcount', ?_⟩
      rw [Stmt.flattenAll, Stmt.execAll_append, Stmt.execAll_cons]
      exact hfirst.append hrest

/-- After the assignments put before, what an alternative is flattened to runs like
the alternative. -/
theorem Else.flatten_sound (hecho : I.EchoesValue) (env : Env V) :
    ∀ (a : Else π) (n : Nat) {env' : Env V}, a.Visible → env.Agree env' →
      Flatten.Sound I n env' (fun n => a.flatten n) (a.RunsLike I env)
  | .absent, n, env', _, hagree => by
      apply Flatten.Sound.pure
      intro env'' hheld branch
      refine ⟨rfl, ?_⟩
      exact hagree.trans hheld.agree.symm
  | .block body bp, n, env', ha, hagree => by
      have hcount := (Stmt.flattenAll_simulates hecho body n ha hagree).1
      constructor
      · exact hcount
      · intro event hevent
        simp [Else.flatten, Stmt.execAll] at hevent
      · intro name _
        rfl
      · intro env'' hheld branch
        have hagree' := hagree.trans hheld.agree.symm
        exact (Stmt.flattenAll_simulates hecho body n ha hagree').2.after branch
  | .elseIf test body bp rest, n, env', ha, hagree => by
      have htest := Expr.flatten_sound hecho env test 1 (m := n) ha.1 hagree
      have hagree₁ := hagree.trans htest.keeps.agree.symm
      have hcount := (Stmt.flattenAll_simulates hecho body (test.flatten 1 n).temporaries ha.2.1
        hagree).1
      have hrest := Else.flatten_sound hecho env rest
        (Stmt.flattenAll (test.flatten 1 n).temporaries body).2 ha.2.2 hagree₁
      have hheld := hrest.keeps.weaken hcount
      constructor
      · exact Nat.le_trans htest.counts (Nat.le_trans hcount hrest.counts)
      · exact htest.hidden.append hrest.hidden
      · intro name hname
        simp only [Else.flatten, Stmt.execAll_append]
        rw [hheld name (hname.mono htest.counts), htest.keeps name hname]
      · simp only [Else.flatten, Stmt.execAll_append]
        intro env'' hheld' branch
        have hagree' := hagree₁.trans (hrest.keeps.agree.symm.trans hheld'.agree.symm)
        have heval := htest.value.mono (Nat.le_trans hcount hrest.counts)
          hheld env'' hheld'
        rw [Else.exec, Else.exec, heval]
        by_cases htruthy : I.truthy (test.eval I env) = true
        · rw [if_pos htruthy, if_pos htruthy]
          exact (Stmt.flattenAll_simulates hecho body _ ha.2.1 hagree').2.after branch
        · rw [if_neg htruthy, if_neg htruthy]
          exact hrest.value env'' hheld' (branch + 1)

end

end Soundness

/-! ### Scripts -/

namespace Script

/-- Running a flattened script records what running the script itself records, once
the assignments to temporaries are dropped, and it leaves every variable that is no
temporary with the same value. -/
theorem flatten_records_same (I : Interpretation V) (hecho : I.EchoesValue) (source : Source)
    (n : Nat) (env : Env V) :
    (((read source).1.flattenFrom n).1.exec I env).visible = ((read source).1.exec I env).events ∧
      ∀ name, isTemporary name = false →
        (((read source).1.flattenFrom n).1.exec I env).env name =
          ((read source).1.exec I env).env name := by
  have hvisible : Stmt.AllVisible (read source).1.statements :=
    (namesIn_read source).imp fun _ => isTemporary_of_beginsWithLetter
  have hagree : env.Agree env := fun _ _ => rfl
  have hrun := (Stmt.flattenAll_simulates hecho (read source).1.statements n hvisible hagree).2
  constructor
  · exact hrun.events
  · intro name hname
    exact (hrun.env name hname).symm

/-- The interpretation of expressions by texts, in which `echo` gives its last
argument back. -/
def textual : Interpretation String where
  literal _ text := text
  binary op left right := "(" ++ left ++ op.spelling ++ right ++ ")"
  negate inner := "-" ++ inner
  call
    | "echo", [_, value] => value
    | callee, arguments => callee ++ "(" ++ String.intercalate "," arguments ++ ")"
  truthy text := text.length % 2 = 0

/-- A script with words, groups and conditions that need temporaries. -/
def nestedSample : Source :=
  Utf8.encode ("let x = replace_all(f(1), 'a', -b)\n" ++
    "if len(x + 1) > 3 \x7b\ng(len(y))\n\x7d else if remove_prefix(x, (h())) == z \x7b\n\x7d\n")

/-- A run of the sample, with temporaries numbered from eight on. -/
theorem flatten_records_same_sample :
    textual.EchoesValue ∧
      (((read nestedSample).1.flattenFrom 7).1.exec textual id).visible =
        ((read nestedSample).1.exec textual id).events ∧
      ∀ name, isTemporary name = false →
        (((read nestedSample).1.flattenFrom 7).1.exec textual id).env name =
          ((read nestedSample).1.exec textual id).env name :=
  ⟨fun _ => rfl, flatten_records_same textual (fun _ => rfl) nestedSample 7 id⟩

end Script
end Shellward
