import Shellward.Proofs.Script.Conditions
import Shellward.Proofs.Script.FlatForm
import Shellward.Proofs.Token.Rescan

/-!
# Values in shell scripts

The shell runs a command only as a line of its own or in a substitution, and it expands
only variables.  In the shell script of a script that is compiled, every command stands
where the shell runs it, every substitution holds a command, and every expansion is that of
a name in upper case by single words.

Main results:

- Theorem `Script.namesIn_flatten`: flattening adds no names but those of temporaries.
- Theorem `Expr.Expressed.valueForm`: a flat expression becomes a value of the shell.
- Theorem `Shell.Expr.ValueForm.substituted`: the nodes of a value stand where they may.
- Theorem `compile_substitutes_values`: so do all nodes of a script that is compiled.
-/

namespace Shellward

variable {π : Type}

/-! ### Names of flattened scripts -/

namespace Flatten

/-- A value over some names is assigned to a temporary by a statement over these names and
that of the temporary. -/
theorem Ensures.lift_namesIn {P : String → Prop} (htemporary : ∀ number, P (temporary number))
    {value : Expr π} (h : value.NamesIn P) (place : π) :
    Ensures (Stmt.NamesIn P) (Expr.NamesIn P) (Flatten.lift value place) := by
  intro n
  constructor
  · intro s hs
    rw [List.mem_singleton.mp hs, Stmt.NamesIn]
    exact ⟨htemporary (n + 1), h⟩
  · exact htemporary (n + 1)

end Flatten

namespace Expr

open Flatten

variable {P : String → Prop} {e : Expr π} {flat : Flatten π (Expr π)}

/-- What an expansion is applied to has only allowed names if temporaries are allowed. -/
theorem toVariable_namesIn (htemporary : ∀ number, P (temporary number)) (he : e.NamesIn P)
    (hflat : Ensures (Stmt.NamesIn P) (NamesIn P) flat) :
    Ensures (Stmt.NamesIn P) (NamesIn P) (e.toVariable flat) := by
  unfold toVariable
  split
  · exact .pure he
  · apply hflat.bind
    intro value hvalue
    exact .lift_namesIn htemporary hvalue _

/-- A word of an expansion has only allowed names if temporaries are allowed. -/
theorem toWord_namesIn (htemporary : ∀ number, P (temporary number)) (depth : Nat)
    (he : e.NamesIn P) (hflat : Ensures (Stmt.NamesIn P) (NamesIn P) flat) :
    Ensures (Stmt.NamesIn P) (NamesIn P) (e.toWord depth flat) := by
  unfold toWord
  split
  · exact .pure he
  · exact .pure he
  · exact hflat
  · apply (toVariable_namesIn htemporary he hflat).bind
    intro holder hholder
    have hecho : (echo depth holder e.place).NamesIn P := ⟨trivial, hholder, trivial⟩
    exact .pure hecho

mutual

/-- Flattening an expression adds no names but those of temporaries. -/
theorem flatten_namesIn (htemporary : ∀ number, P (temporary number)) :
    ∀ (e : Expr π) (depth : Nat), e.NamesIn P →
      Ensures (Stmt.NamesIn P) (NamesIn P) (e.flatten depth)
  | .literal .., _, h | .name .., _, h | .call (.nested _) .., _, h => by
      rw [flatten]
      exact .pure h
  | .call .plain callee cp arguments p, depth, h => by
      rcases flatten_call depth callee cp arguments p with heq | ⟨target, words, rfl, heq⟩ | heq
      · rw [heq]
        apply (flattenAll_namesIn htemporary arguments (depth + 1) h).bind
        intro values hvalues
        exact .pure hvalues
      · rcases h with ⟨htarget, hwords⟩
        rw [heq]
        apply (toVariable_namesIn htemporary htarget
          (flatten_namesIn htemporary target (depth + 1) htarget)).bind
        intro target' htarget'
        apply (flattenWords_namesIn htemporary words (depth + 1) hwords).bind
        intro words' hwords'
        have hall : NamesInAll P (target' :: words') := ⟨htarget', hwords'⟩
        exact .pure hall
      · rw [heq]
        exact .pure h
  | .binary op left right p, depth, h => by
      rcases h with ⟨hleft, hright⟩
      rw [flatten]
      apply (flatten_namesIn htemporary left (depth + 1) hleft).bind
      intro l hl
      apply (flatten_namesIn htemporary right (depth + 1) hright).bind
      intro r hr
      have hboth : l.NamesIn P ∧ r.NamesIn P := ⟨hl, hr⟩
      exact .pure hboth
  | .negate inner _, depth, h | .group inner _, depth, h => by
      rw [flatten]
      apply (flatten_namesIn htemporary inner (depth + 1) h).bind
      intro v hv
      exact .pure hv

/-- Flattened arguments have only allowed names if temporaries are allowed. -/
theorem flattenAll_namesIn (htemporary : ∀ number, P (temporary number)) :
    ∀ (es : List (Expr π)) (depth : Nat), NamesInAll P es →
      Ensures (Stmt.NamesIn P) (NamesInAll P) (flattenAll depth es)
  | [], _, h => by
      rw [flattenAll]
      exact .pure h
  | e :: es, depth, h => by
      rw [flattenAll]
      apply (flatten_namesIn htemporary e depth h.1).bind
      intro v hv
      apply (flattenAll_namesIn htemporary es depth h.2).bind
      intro vs hvs
      have hall : NamesInAll P (v :: vs) := ⟨hv, hvs⟩
      exact .pure hall

/-- Flattened words have only allowed names if temporaries are allowed. -/
theorem flattenWords_namesIn (htemporary : ∀ number, P (temporary number)) :
    ∀ (es : List (Expr π)) (depth : Nat), NamesInAll P es →
      Ensures (Stmt.NamesIn P) (NamesInAll P) (flattenWords depth es)
  | [], _, h => by
      rw [flattenWords]
      exact .pure h
  | e :: es, depth, h => by
      rw [flattenWords]
      apply (toWord_namesIn htemporary depth h.1 (flatten_namesIn htemporary e depth h.1)).bind
      intro v hv
      apply (flattenWords_namesIn htemporary es depth h.2).bind
      intro vs hvs
      have hall : NamesInAll P (v :: vs) := ⟨hv, hvs⟩
      exact .pure hall

end

end Expr

section

open Flatten

variable {P : String → Prop}

/-- Statements one after the other have only allowed names exactly if both parts do. -/
theorem Stmt.namesInAll_append {ss ts : List (Stmt π)} :
    Stmt.NamesInAll P (ss ++ ts) ↔ Stmt.NamesInAll P ss ∧ Stmt.NamesInAll P ts := by
  simp only [Stmt.namesInAll_iff, List.forall_mem_append]

mutual

/-- Flattening a statement adds no names but those of temporaries. -/
theorem Stmt.flatten_namesIn (htemporary : ∀ number, P (temporary number)) :
    ∀ (s : Stmt π) (n : Nat), s.NamesIn P → Stmt.NamesInAll P (s.flatten n).1
  | .comment .., _, _ | .blank _, _, _ => ⟨trivial, trivial⟩
  | .assign _ _ value _, n, h => by
      have hvalue := value.flatten_namesIn htemporary 1 h.2 n
      rw [Stmt.flatten, Stmt.namesInAll_append, Stmt.namesInAll_iff]
      exact ⟨hvalue.1, ⟨h.1, hvalue.2⟩, trivial⟩
  | .run value _, n, h => by
      have hvalue := value.flatten_namesIn htemporary 0 h n
      rw [Stmt.flatten, Stmt.namesInAll_append, Stmt.namesInAll_iff]
      exact ⟨hvalue.1, hvalue.2, trivial⟩
  | .cond test body bp alternative p, n, h => by
      rcases h with ⟨htest, hbody, halternative⟩
      have htest := test.flatten_namesIn htemporary 1 htest n
      have hbody := Stmt.flattenAll_namesIn htemporary body (test.flatten 1 n).temporaries hbody
      have halternative := Else.flatten_namesIn htemporary alternative
        (Stmt.flattenAll (test.flatten 1 n).temporaries body).2 halternative
      rw [Stmt.flatten, Stmt.namesInAll_append, Stmt.namesInAll_append]
      exact ⟨⟨Stmt.namesInAll_iff.mpr htest.1, Stmt.namesInAll_iff.mpr halternative.1⟩,
        ⟨htest.2, hbody, halternative.2⟩, trivial⟩

/-- Flattened statements have only allowed names if temporaries are allowed. -/
theorem Stmt.flattenAll_namesIn (htemporary : ∀ number, P (temporary number)) :
    ∀ (ss : List (Stmt π)) (n : Nat), Stmt.NamesInAll P ss →
      Stmt.NamesInAll P (Stmt.flattenAll n ss).1
  | [], _, _ => trivial
  | s :: ss, n, h => by
      rw [Stmt.flattenAll, Stmt.namesInAll_append]
      exact ⟨Stmt.flatten_namesIn htemporary s n h.1,
        Stmt.flattenAll_namesIn htemporary ss (s.flatten n).2 h.2⟩

/-- What follows the body of a conditional, flattened, has only allowed names if temporaries are
allowed, and so has what is put before. -/
theorem Else.flatten_namesIn (htemporary : ∀ number, P (temporary number)) :
    ∀ (a : Else π) (n : Nat), a.NamesIn P →
      (∀ s ∈ (a.flatten n).before, s.NamesIn P) ∧ (a.flatten n).value.NamesIn P
  | .absent, _, _ => ⟨List.forall_mem_nil _, trivial⟩
  | .block body _, n, h =>
      ⟨List.forall_mem_nil _, Stmt.flattenAll_namesIn htemporary body n h⟩
  | .elseIf test body _ rest, n, h => by
      rcases h with ⟨htest, hbody, hrest⟩
      have htest := test.flatten_namesIn htemporary 1 htest n
      have hbody := Stmt.flattenAll_namesIn htemporary body (test.flatten 1 n).temporaries hbody
      have hrest := Else.flatten_namesIn htemporary rest
        (Stmt.flattenAll (test.flatten 1 n).temporaries body).2 hrest
      rw [Else.flatten]
      exact ⟨List.forall_mem_append.mpr ⟨htest.1, hrest.1⟩, htest.2, hbody, hrest.2⟩

end

/-- Flattening a script adds no names but those of temporaries. -/
theorem Script.namesIn_flatten (htemporary : ∀ number, P (temporary number)) {s : Script π}
    (h : s.NamesIn P) : s.flatten.NamesIn P :=
  Stmt.flattenAll_namesIn htemporary s.statements 0 h

end

/-! ### Values of the shell -/

namespace Shell

/-- What an expression of a statement is for. -/
inductive Use where
  /-- To be assigned to a variable. -/
  | assigned
  /-- To be run as a line of its own. -/
  | run
  /-- To be tested. -/
  | tested
deriving DecidableEq, Repr

namespace Expr

/-- The variable that an expression expands. -/
def parameter? : Expr → Option String
  | .length name | .replace name _ _ _ | .remove name _ _ => some name
  | _ => none

/-- Whether an expression is an operation, a group or a wrapping. -/
def isOperation : Expr → Bool
  | .binary .. | .group _ | .arithmetic _ | .test _ => true
  | _ => false

/-- Values of the shell, where the variables that are expanded satisfy a property: a
command is the whole of a substitution, and an expansion takes words. -/
inductive ValueForm (P : String → Prop) : Expr → Prop where
  | text (text : String) : ValueForm P (.text text)
  | value (name : String) (quoted : Bool) : ValueForm P (.value name quoted)
  | substitution {name : String} {arguments : List Expr} {redirects : List Redirect}
      (harguments : ∀ e ∈ arguments, ValueForm P e) :
      ValueForm P (.substitution (.command name arguments redirects))
  | expansion {e : Expr} {name : String} (hparameter : e.parameter? = some name) (hname : P name)
      (hforms : ∀ w ∈ e.children, w.isWord = true) (hwords : ∀ w ∈ e.children, ValueForm P w) :
      ValueForm P e
  | operation {e : Expr} (hoperation : e.isOperation = true)
      (hparts : ∀ c ∈ e.children, ValueForm P c) : ValueForm P e

/-- What a statement holds: a value, or a command if it is to be run. -/
inductive UsedForm (P : String → Prop) : Use → Expr → Prop where
  | value {use : Use} {e : Expr} (h : ValueForm P e) : UsedForm P use e
  | command {name : String} {arguments : List Expr} {redirects : List Redirect}
      (harguments : ∀ e ∈ arguments, ValueForm P e) :
      UsedForm P .run (.command name arguments redirects)

end Expr

/-- A node of what a statement holds stands where it may. -/
structure Occurrence.Substituted (P : String → Prop) (use : Use) (o : Occurrence) : Prop where
  /-- A command is all that a line runs, or directly in a substitution. -/
  command : o.node.isCommand = true →
    (use = .run ∧ o.around = []) ∨ o.around.head? = some (.substitution o.node)
  /-- A substitution holds a command. -/
  substitution : ∀ inner, o.node = .substitution inner → inner.isCommand = true
  /-- The variables that are expanded satisfy a property. -/
  parameter : ∀ name, o.node.parameter? = some name → P name
  /-- Expansions take words. -/
  words : o.node.parameter?.isSome = true → ∀ w ∈ o.node.children, w.isWord = true

namespace Occurrence.Substituted

variable {P : String → Prop} {use : Use} {around : List Expr}

/-- Texts, values of variables and operations may stand anywhere. -/
theorem of_plain {e : Expr} (hcommand : e.isCommand = false)
    (hsubstitution : ∀ inner, e ≠ .substitution inner) (hparameter : e.parameter? = none) :
    Substituted P use ⟨around, e⟩ where
  command h := absurd h (by simp [hcommand])
  substitution inner h := absurd h (hsubstitution inner)
  parameter name h := absurd h (by simp [hparameter])
  words h := absurd h (by simp [hparameter])

/-- Operations, groups and wrappings may stand anywhere. -/
theorem of_isOperation {e : Expr} (h : e.isOperation = true) :
    Substituted P use ⟨around, e⟩ := by
  cases e with
  | binary | group | arithmetic | test => exact of_plain rfl (by simp) rfl
  | text | value | command | substitution | length | replace | remove =>
      simp [Expr.isOperation] at h

/-- A substitution of a command may stand anywhere. -/
theorem of_substitution {inner : Expr} (h : inner.isCommand = true) :
    Substituted P use ⟨around, .substitution inner⟩ where
  command hcommand := absurd hcommand (by simp [Expr.isCommand])
  substitution _ heq := Expr.substitution.inj heq ▸ h
  parameter _ hname := absurd hname (by simp [Expr.parameter?])
  words hparameter := absurd hparameter (by simp [Expr.parameter?])

/-- A command may stand where the shell runs it. -/
theorem of_command {name : String} {arguments : List Expr} {redirects : List Redirect}
    (h : (use = .run ∧ around = []) ∨
      around.head? = some (.substitution (.command name arguments redirects))) :
    Substituted P use ⟨around, .command name arguments redirects⟩ where
  command _ := h
  substitution _ heq := by cases heq
  parameter _ hname := absurd hname (by simp [Expr.parameter?])
  words hparameter := absurd hparameter (by simp [Expr.parameter?])

/-- An expansion of a variable by words may stand anywhere. -/
theorem of_expansion {e : Expr} {name : String} (hparameter : e.parameter? = some name)
    (hname : P name) (hwords : ∀ w ∈ e.children, w.isWord = true) :
    Substituted P use ⟨around, e⟩ where
  command hcommand := by
    cases e <;> simp [Expr.isCommand, Expr.parameter?] at hcommand hparameter
  substitution inner heq := by
    rw [show e = .substitution inner from heq] at hparameter
    simp [Expr.parameter?] at hparameter
  parameter _ hname' := Option.some.inj (hparameter.symm.trans hname') ▸ hname
  words _ := hwords

end Occurrence.Substituted

namespace Expr

variable {P : String → Prop}

/-- All nodes of a value stand where they may. -/
theorem ValueForm.substituted {e : Expr} (h : e.ValueForm P) (use : Use) {around : List Expr}
    {o : Occurrence} (ho : o ∈ e.occurrences around) : o.Substituted P use := by
  induction h generalizing around with
  | text | value =>
      rcases mem_occurrences.mp ho with rfl | ⟨c, hc, _⟩
      · exact .of_plain rfl (by simp) rfl
      · exact absurd hc List.not_mem_nil
  | substitution _ ih =>
      rcases mem_occurrences.mp ho with rfl | ⟨c, hc, ho⟩
      · exact .of_substitution rfl
      · rw [List.mem_singleton.mp hc] at ho
        rcases mem_occurrences.mp ho with rfl | ⟨a, ha, ho⟩
        · exact .of_command (.inr rfl)
        · exact ih a ha ho
  | expansion hparameter hname hforms _ ih =>
      rcases mem_occurrences.mp ho with rfl | ⟨w, hw, ho⟩
      · exact .of_expansion hparameter hname hforms
      · exact ih w hw ho
  | operation hoperation _ ih =>
      rcases mem_occurrences.mp ho with rfl | ⟨c, hc, ho⟩
      · exact .of_isOperation hoperation
      · exact ih c hc ho

/-- All nodes of what a statement holds stand where they may. -/
theorem UsedForm.substituted {use : Use} {e : Expr} (h : e.UsedForm P use) {o : Occurrence}
    (ho : o ∈ e.occurrences []) : o.Substituted P use := by
  cases h with
  | value h => exact h.substituted use ho
  | command harguments =>
      rcases mem_occurrences.mp ho with rfl | ⟨a, ha, ho⟩
      · exact .of_command (.inl ⟨rfl, rfl⟩)
      · exact (harguments a ha).substituted .run ho

/-- A value without the brackets of a test is a value. -/
theorem ValueForm.unbracketed {e : Expr} (h : e.ValueForm P) : e.unbracketed.ValueForm P := by
  cases e with
  | test inner =>
      cases h with
      | expansion hparameter => simp [parameter?] at hparameter
      | operation _ hparts => exact hparts inner List.mem_cons_self
  | text | value | command | binary | group | arithmetic | substitution | length | replace
  | remove => exact h

/-- What an operation is put into is a value if its parts are. -/
theorem ValueForm.wrapping {inner : Expr} (hoperation : inner.isOperation = true)
    (hparts : ∀ c ∈ inner.children, c.ValueForm P) (wrapping : Wrapping) :
    (wrapping.apply inner).ValueForm P := by
  have hinner : inner.ValueForm P := .operation hoperation hparts
  cases wrapping with
  | test | arithmetic => exact .operation rfl (List.forall_mem_singleton.mpr hinner)
  | bare => exact hinner

end Expr
end Shell

/-! ### Flat expressions become values -/

/-- An expansion takes a variable and as many words as its builtin takes other arguments. -/
theorem Expansion.Takes.length_eq {name : String} {x : Expansion} {words : List Shell.Expr}
    {expansion : Shell.Expr} (h : x.Takes name words expansion) : words.length + 1 = x.arity := by
  cases h <;> rfl

/-- An expansion expands the variable that it takes. -/
theorem Expansion.Takes.parameter? {name : String} {x : Expansion} {words : List Shell.Expr}
    {expansion : Shell.Expr} (h : x.Takes name words expansion) :
    expansion.parameter? = some name := by
  cases h <;> rfl

namespace Expr

variable {P : String → Prop}

/-- The names that are read satisfy a property in upper case. -/
abbrev UpperIn (P : String → Prop) (e : Expr π) : Prop :=
  e.NamesIn fun text => P (Text.upper text)

/-- The call of an expansion becomes a value if its words do. -/
theorem valueForm_of_takes {text : String} {words : List (Expr π)} {shell : Expr π → Shell.Expr}
    {x : Expansion} {expansion : Shell.Expr} (hname : P (Text.upper text))
    (hforms : ∀ e ∈ words, (shell e).isWord = true)
    (htakes : x.Takes (Text.upper text) (words.map shell) expansion)
    (hwords : ∀ e ∈ words, (shell e).ValueForm P) : expansion.ValueForm P := by
  apply Shell.Expr.ValueForm.expansion htakes.parameter? hname
  · rw [htakes.children]
    exact List.forall_mem_map.mpr hforms
  · rw [htakes.children]
    exact List.forall_mem_map.mpr hwords

/-- A flat expression becomes a value of the shell, wherever it stands. -/
theorem Expressed.valueForm {context : Context} {e : Expr π} {shell : Shell.Expr}
    (h : Expressed context e shell) (hflat : e.Flat fun _ => False) (hnames : e.UpperIn P) :
    shell.ValueForm P := by
  induction h with
  | literal => exact .text _
  | name => exact .value _ _
  | number => exact .text _
  | @command _ form callee _ _ arguments shell hcallee _ ih =>
      have harguments := Expr.namesInAll_iff.mp hnames
      cases hflat with
      | given h => exact h.elim
      | misused hexpansion | expansion hexpansion => simp [hcallee] at hexpansion
      | command _ hflat =>
          rcases Shell.Expr.ofCall_eq callee (arguments.map shell) with ⟨name, redirects, hcall⟩
          rw [hcall]
          apply Shell.Expr.ValueForm.substitution
          exact List.forall_mem_map.mpr fun e he => ih e he (hflat e he) (harguments e he)
  | @expansion _ form _ _ _ _ _ _ _ x _ hcallee hforms htakes _ ih =>
      rcases hnames with ⟨hname, hnames⟩
      have hwords := Expr.namesInAll_iff.mp hnames
      cases hflat with
      | given h => exact h.elim
      | command hcommand => simp [hcallee] at hcommand
      | misused hcallee' harity =>
          -- An expansion that is expressed has the right number of arguments.
          have hlength := htakes.length_eq
          rw [List.length_map] at hlength
          rw [hcallee] at hcallee'
          exact absurd (hlength.trans (congrArg Expansion.arity (Option.some.inj hcallee'))) harity
      | expansion _ _ _ hflat =>
          exact valueForm_of_takes hname hforms htakes fun e he =>
            ih e he (hflat e he) (hwords e he)
  | binary _ _ ihleft ihright =>
      cases hflat with
      | binary hleft hright =>
          apply Shell.Expr.ValueForm.wrapping rfl
          exact List.forall_mem_cons.mpr
            ⟨ihleft hleft hnames.1, List.forall_mem_singleton.mpr (ihright hright hnames.2)⟩
  | group _ ih =>
      cases hflat with
      | group hinner =>
          apply Shell.Expr.ValueForm.wrapping rfl
          exact List.forall_mem_singleton.mpr (ih hinner hnames)
  | negate _ _ ih =>
      cases hflat with
      | negate hinner =>
          apply Shell.Expr.ValueForm.wrapping rfl
          exact List.forall_mem_cons.mpr
            ⟨.text _, List.forall_mem_singleton.mpr (ih hinner hnames)⟩

/-- As a whole statement, a flat expression becomes a value or a command. -/
theorem Expressed.usedForm {e : Expr π} {shell : Shell.Expr} (h : Expressed .value e shell)
    (hflat : e.FlatLine fun _ => False) (hnames : e.UpperIn P) : shell.UsedForm P .run := by
  cases hflat with
  | value hflat => exact .value (h.valueForm hflat hnames)
  | @command callee _ _ arguments hcallee hflat =>
      have harguments := Expr.namesInAll_iff.mp hnames
      cases h with
      | expansion hexpansion => simp [hcallee] at hexpansion
      | @command _ _ _ _ _ _ shell _ hexpressed =>
          rcases Shell.Expr.ofCall_eq callee (arguments.map shell) with ⟨name, redirects, hcall⟩
          rw [hcall]
          apply Shell.Expr.UsedForm.command
          exact List.forall_mem_map.mpr fun e he =>
            (hexpressed e he).valueForm (hflat e he) (harguments e he)

/-- A flat condition becomes a value without its brackets. -/
theorem valueForm_testToShell {e : Expr π} (h : e.testToShell.problems = [])
    (hflat : e.Flat fun _ => False) (hnames : e.UpperIn P) :
    e.testToShell.value.ValueForm P := by
  rw [problems_testToShell] at h
  rw [value_testToShell]
  exact ((expressed_of_problems h).valueForm hflat hnames).unbracketed

end Expr

/-! ### Statements -/

mutual

/-- The expressions that a statement of the shell holds, and what they are for. -/
def Shell.Stmt.uses : Shell.Stmt → List (Shell.Use × Shell.Expr)
  | .comment _ | .blank => []
  | .assign _ value => [(.assigned, value)]
  | .run value => [(.run, value)]
  | .cond test body alternative =>
      (.tested, test) :: (Shell.Stmt.allUses body ++ alternative.uses)

/-- The expressions that several statements of the shell hold. -/
def Shell.Stmt.allUses : List Shell.Stmt → List (Shell.Use × Shell.Expr)
  | [] => []
  | s :: ss => s.uses ++ Shell.Stmt.allUses ss

/-- The expressions that stand in what follows the body of a conditional. -/
def Shell.Else.uses : Shell.Else → List (Shell.Use × Shell.Expr)
  | .absent => []
  | .block body => Shell.Stmt.allUses body
  | .elseIf test body rest => (.tested, test) :: (Shell.Stmt.allUses body ++ rest.uses)

end

/-- The expressions that the statements of a shell script hold, and what they are for. -/
def Shell.Script.uses (s : Shell.Script) : List (Shell.Use × Shell.Expr) :=
  Shell.Stmt.allUses s.statements

section

variable {P : String → Prop}

/-- Expressions have the form that what they are for asks for. -/
abbrev UsedForms (P : String → Prop) (uses : List (Shell.Use × Shell.Expr)) : Prop :=
  ∀ u ∈ uses, u.2.UsedForm P u.1

/-- A test and its body have the forms that are asked for if the parts have them. -/
theorem usedForms_branch {test : Expr π} (hproblems : test.testToShell.problems = [])
    (hflat : test.Flat fun _ => False) (hnames : test.UpperIn P)
    {uses uses' : List (Shell.Use × Shell.Expr)} (hbody : UsedForms P uses)
    (hrest : UsedForms P uses') :
    UsedForms P ((.tested, test.testToShell.value) :: (uses ++ uses')) := by
  have htest := Expr.valueForm_testToShell hproblems hflat hnames
  exact List.forall_mem_cons.mpr ⟨.value htest, List.forall_mem_append.mpr ⟨hbody, hrest⟩⟩

mutual

/-- What a flat statement holds has the form that is asked for. -/
theorem Stmt.usedForms_toShell : ∀ s : Stmt π, s.toShell.problems = [] →
    (s.Flat fun _ => False) → s.NamesIn (fun text => P (Text.upper text)) →
    UsedForms P s.toShell.value.uses
  | .comment .., _, _, _ | .blank _, _, _, _ => by
      rw [Stmt.toShell]
      exact List.forall_mem_nil _
  | .assign _ _ value _, h, hflat, hnames => by
      rw [Stmt.toShell] at h ⊢
      simp only [Checked.problems_bind, Checked.problems_pure, List.append_nil] at h
      have hvalue := (Expr.expressed_of_problems h).valueForm hflat hnames.2
      exact List.forall_mem_singleton.mpr (.value hvalue)
  | .run value _, h, hflat, hnames => by
      rw [Stmt.toShell] at h ⊢
      cases hcallee : value.expansionName? with
      | some callee => simp [hcallee, Checked.report] at h
      | none =>
          simp only [hcallee, Checked.problems_bind, Checked.problems_pure, List.append_nil] at h
          have hvalue := (Expr.expressed_of_problems h).usedForm hflat hnames
          exact List.forall_mem_singleton.mpr hvalue
  | .cond test body _ alternative _, h, ⟨hflat, hbodyFlat, hrestFlat⟩, ⟨hnames, hbody, hrest⟩ => by
      rw [Stmt.toShell] at h ⊢
      simp only [Checked.problems_bind, Checked.problems_pure, List.append_nil,
        List.append_eq_nil_iff] at h
      rcases h with ⟨htest, hbodyShell, hrestShell⟩
      exact usedForms_branch htest hflat hnames
        (Stmt.usedForms_allToShell body hbodyShell hbodyFlat hbody)
        (Else.usedForms_toShell alternative hrestShell hrestFlat hrest)

/-- What several flat statements hold has the forms that are asked for. -/
theorem Stmt.usedForms_allToShell : ∀ ss : List (Stmt π), (Stmt.allToShell ss).problems = [] →
    Stmt.AllFlat (fun _ => False) ss → Stmt.NamesInAll (fun text => P (Text.upper text)) ss →
    UsedForms P (Shell.Stmt.allUses (Stmt.allToShell ss).value)
  | [], _, _, _ => by
      rw [Stmt.allToShell]
      exact List.forall_mem_nil _
  | s :: ss, h, ⟨hflat, hflats⟩, ⟨hnames, hallNames⟩ => by
      rw [Stmt.allToShell] at h ⊢
      simp only [Checked.problems_bind, Checked.problems_pure, List.append_nil,
        List.append_eq_nil_iff] at h
      exact List.forall_mem_append.mpr
        ⟨Stmt.usedForms_toShell s h.1 hflat hnames,
          Stmt.usedForms_allToShell ss h.2 hflats hallNames⟩

/-- What stands after the body of a flat conditional has the forms that are asked for. -/
theorem Else.usedForms_toShell : ∀ a : Else π, a.toShell.problems = [] →
    (a.Flat fun _ => False) → a.NamesIn (fun text => P (Text.upper text)) →
    UsedForms P a.toShell.value.uses
  | .absent, _, _, _ => by
      rw [Else.toShell]
      exact List.forall_mem_nil _
  | .block body _, h, hflat, hnames => by
      rw [Else.toShell] at h ⊢
      simp only [Checked.problems_bind, Checked.problems_pure, List.append_nil] at h
      exact Stmt.usedForms_allToShell body h hflat hnames
  | .elseIf test body _ rest, h, ⟨hflat, hbodyFlat, hrestFlat⟩, ⟨hnames, hbody, hrest⟩ => by
      rw [Else.toShell] at h ⊢
      simp only [Checked.problems_bind, Checked.problems_pure, List.append_nil,
        List.append_eq_nil_iff] at h
      rcases h with ⟨htest, hbodyShell, hrestShell⟩
      exact usedForms_branch htest hflat hnames
        (Stmt.usedForms_allToShell body hbodyShell hbodyFlat hbody)
        (Else.usedForms_toShell rest hrestShell hrestFlat hrest)

end

end

/-! ### Names in upper case -/

namespace Text

/-- Whether a text is a name in upper case: a letter, and then letters, digits and
underscores. -/
def isUpperName (text : String) : Bool :=
  match text.toList with
  | [] => false
  | c :: rest => c.isUpper && rest.all fun c => c.isUpper || c.isDigit || c == '_'

/-- A digit is the same in upper case. -/
theorem toUpper_of_isDigit {c : Char} (h : c.isDigit = true) : c.toUpper = c := by
  have hsmall : ¬ ('a'.val ≤ c.val ∧ c.val ≤ 'z'.val) := by
    intro hlower
    have hdigit : c.val ≤ '9'.val := (of_decide_eq_true (Bool.and_eq_true_iff.mp h).2)
    exact absurd (UInt32.le_trans hlower.1 hdigit) (by decide)
  exact dif_neg hsmall

end Text

/-- The name of a temporary is in upper case. -/
theorem Flatten.upper_temporary (number : Nat) :
    Text.upper (temporary number) = temporary number := by
  have hdigits : (Nat.toDigits 10 number).map Char.toUpper = Nat.toDigits 10 number := by
    have hsame : ∀ c ∈ Nat.toDigits 10 number, c.toUpper = id c := by
      intro c hc
      exact Text.toUpper_of_isDigit (Nat.isDigit_of_mem_toDigits (by decide) (by decide) hc)
    rw [List.map_congr_left hsame, List.map_id]
  have hchars : (temporary number).toList.map Char.toUpper = (temporary number).toList := by
    rw [toList_temporary]
    simp only [List.map_cons, hdigits]
    rfl
  rw [Text.upper, hchars, String.ofList_toList]

namespace Token

/-- A letter of a name is a capital in upper case. -/
theorem isUpper_of_isLetter {b : UInt8} (h : isLetter b = true) :
    (Char.ofNat b.toNat).toUpper.isUpper = true := by
  have hall : ∀ n < 128, isLetter (UInt8.ofNat n) = true →
      (Char.ofNat n).toUpper.isUpper = true := by
    decide +kernel
  exact Utf8.of_ascii (fun b c => isLetter b = true → c.toUpper.isUpper = true) hall
    (lt_ascii_of_isLetter h) h

/-- A byte of a name is a capital, a digit or an underscore in upper case. -/
theorem isUpper_of_isWordByte {b : UInt8} (h : isWordByte b = true) :
    ((Char.ofNat b.toNat).toUpper.isUpper || (Char.ofNat b.toNat).toUpper.isDigit ||
      (Char.ofNat b.toNat).toUpper == '_') = true := by
  have hall : ∀ n < 128, isWordByte (UInt8.ofNat n) = true →
      ((Char.ofNat n).toUpper.isUpper || (Char.ofNat n).toUpper.isDigit ||
        (Char.ofNat n).toUpper == '_') = true := by
    decide +kernel
  exact Utf8.of_ascii (fun b c => isWordByte b = true →
    (c.toUpper.isUpper || c.toUpper.isDigit || c.toUpper == '_') = true) hall
    (lt_ascii_of_isWordByte h) h

/-- The text of a name is a name in upper case once it is put in upper case. -/
theorem isUpperName_of_spelling {t : Token} (h : Spelling t.kind t.bytes)
    (hkind : t.kind = .identifier) : Text.isUpperName (Text.upper t.lexeme) = true := by
  rcases h.of_identifier hkind with ⟨b, body, hbytes, hletter, hbody, _⟩
  have hascii := lt_ascii_of_word hletter hbody
  have hchars : (Text.upper t.lexeme).toList =
      (b :: body).map fun c => (Char.ofNat c.toNat).toUpper := by
    rw [Text.upper, String.toList_ofList, lexeme, hbytes, Utf8.decode, String.toList_ofList,
      Utf8.decodeChars_of_ascii hascii, List.map_map]
    rfl
  rw [Text.isUpperName, hchars, List.map_cons, Bool.and_eq_true, List.all_map, List.all_eq_true]
  exact ⟨isUpper_of_isLetter hletter, fun c hc => isUpper_of_isWordByte (hbody c hc)⟩

end Token

/-! ### Scripts -/

/-- A name is written in a script. -/
def Source.Names (source : Source) (name : String) : Prop :=
  ∃ t ∈ Token.ofSource source, t.kind = .identifier ∧ t.lexeme = name

/-- The variables that the shell script of a script may expand: temporaries, and the names
that are written in the script, in upper case. -/
inductive Source.Expands (source : Source) : String → Prop where
  | temporary (number : Nat) : source.Expands (Flatten.temporary number)
  | name {name : String} (hname : source.Names name)
      (hupper : Text.isUpperName (Text.upper name) = true) : source.Expands (Text.upper name)

/-- The names in a script that is read may be expanded. -/
theorem Script.namesIn_expands {source : Source} {s : Script Span}
    (h : Script.parse source = .ok s) :
    s.NamesIn fun text => source.Expands (Text.upper text) := by
  have hread : (read source).1.NamesIn fun text => source.Expands (Text.upper text) := by
    apply namesIn_read_of_tokens
    intro t ht hkind
    have hmem : t ∈ Token.ofSource source := List.mem_append_left _ ht
    exact .name ⟨t, hmem, hkind, rfl⟩
      (Token.isUpperName_of_spelling (Token.spelling_of_mem_tokensFrom ht) hkind)
  rw [parse_eq_ok_iff.mp h] at hread
  exact hread

/-- The names in a script that is read and flattened may be expanded. -/
theorem Script.namesIn_expands_flatten {source : Source} {s : Script Span}
    (h : Script.parse source = .ok s) :
    s.flatten.NamesIn fun text => source.Expands (Text.upper text) := by
  apply namesIn_flatten _ (namesIn_expands h)
  intro number
  rw [Flatten.upper_temporary]
  exact .temporary number

/-- What the statements of the shell script of a script hold has the form that it is for. -/
theorem Script.usedForms {source : Source} {s : Script Span} {shell : Shell.Script}
    (hparse : Script.parse source = .ok s) (hshell : s.flatten.toShell = .ok shell) :
    UsedForms source.Expands shell.uses := by
  have hflat : Stmt.AllFlat (fun _ => False) s.flatten.statements := by
    apply Stmt.flattenAll_flat
    intro e he hnested
    rw [plain_of_parse hparse e he] at hnested
    contradiction
  have hnames := namesIn_expands_flatten hparse
  rcases Script.of_toShell hshell with ⟨hproblems, rfl⟩
  exact Stmt.usedForms_allToShell _ hproblems hflat hnames

/-- In a script that is compiled, a command is all that a line runs or directly in a
substitution, a substitution holds a command, and an expansion is that of a temporary or of
a name of the script in upper case, by single words. -/
theorem compile_substitutes_values {source : Source} {width : Nat} {text : String}
    (h : compile source width = .ok text) :
    ∃ script shell, Script.parse source = .ok script ∧ script.flatten.toShell = .ok shell ∧
      text = shell.layout width ∧
      ∀ use root, (use, root) ∈ shell.uses →
        ∀ o ∈ root.occurrences [], o.Substituted source.Expands use := by
  rcases exists_of_compile h with ⟨script, shell, hparse, hshell, htext⟩
  refine ⟨script, shell, hparse, hshell, htext, ?_⟩
  intro use root hroot o ho
  exact (Script.usedForms hparse hshell (use, root) hroot).substituted ho

/-- Calls in a test, in an operation, in an argument and in the words of an expansion. -/
def substitutionSample : Source :=
  Utf8.encode "f(g(len(h(x))), replace(x_1, 'a', k(2) + 1))\nif f() == -g(1) \x7b\n\x7d\n"

/-- The shell script of the sample. -/
def substitutionText : String :=
  "#!/bin/sh\n\n_TMP1=$(h $X)\n_TMP2=$(( $(k 2) + 1 ))\n" ++
    "f $(g $\x7b#_TMP1\x7d) $\x7bX_1/a/$(echo -n $_TMP2)\x7d\n" ++
    "if [ $(f) = $(( 0 - $(g 1) )) ]; then\n  :\nfi\n"

/-- The shell script of the sample substitutes values only. -/
theorem compile_substitutes_values_sample :
    compile substitutionSample 2 = .ok substitutionText ∧
      ∃ script shell, Script.parse substitutionSample = .ok script ∧
        script.flatten.toShell = .ok shell ∧ substitutionText = shell.layout 2 ∧
        ∀ use root, (use, root) ∈ shell.uses →
          ∀ o ∈ root.occurrences [], o.Substituted substitutionSample.Expands use := by
  have hcompile : compile substitutionSample 2 = .ok substitutionText := by
    decide +kernel
  exact ⟨hcompile, compile_substitutes_values hcompile⟩

end Shellward
