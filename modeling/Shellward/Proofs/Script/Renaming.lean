import Shellward.Proofs.Script.Flattening

/-!
# Flattening uses names and places alike

Flattening looks at no place and at no name of a variable; it only counts the temporaries
that it names.  So a script whose places and names are replaced is flattened to the same
script with these replaced, if the count goes on as the temporaries are replaced.

Main results:

- Theorem `Stmt.flattenAll_bimap`: flattening statements with replaced places and names is
  replacing those of the flattened statements.
- Theorem `Script.flattenFrom_add`: from a later count, a script without temporaries is
  flattened to the same script with its temporaries renumbered.
-/

namespace Shellward

variable {π κ α β γ δ : Type}

/-! ### Replacing places and names -/

mutual

/-- Replace the places of an expression and the names that it reads. -/
def Expr.bimap (f : π → κ) (g : String → String) : Expr π → Expr κ
  | .literal kind text p => .literal kind text (f p)
  | .name text p => .name (g text) (f p)
  | .call form callee cp arguments p => .call form callee (f cp) (Expr.bimapAll f g arguments) (f p)
  | .binary op left right p => .binary op (left.bimap f g) (right.bimap f g) (f p)
  | .negate inner p => .negate (inner.bimap f g) (f p)
  | .group inner p => .group (inner.bimap f g) (f p)

/-- Replace the places and names of several expressions. -/
def Expr.bimapAll (f : π → κ) (g : String → String) : List (Expr π) → List (Expr κ)
  | [] => []
  | e :: es => e.bimap f g :: Expr.bimapAll f g es

end

mutual

/-- Replace the places of a statement and the names that it reads and sets. -/
def Stmt.bimap (f : π → κ) (g : String → String) : Stmt π → Stmt κ
  | .comment text p => .comment text (f p)
  | .blank p => .blank (f p)
  | .assign target tp value p => .assign (g target) (f tp) (value.bimap f g) (f p)
  | .run value p => .run (value.bimap f g) (f p)
  | .cond test body bp alternative p =>
      .cond (test.bimap f g) (Stmt.bimapAll f g body) (f bp) (alternative.bimap f g) (f p)

/-- Replace the places and names of several statements. -/
def Stmt.bimapAll (f : π → κ) (g : String → String) : List (Stmt π) → List (Stmt κ)
  | [] => []
  | s :: ss => s.bimap f g :: Stmt.bimapAll f g ss

/-- Replace the places and names of what follows a conditional. -/
def Else.bimap (f : π → κ) (g : String → String) : Else π → Else κ
  | .absent => .absent
  | .block body bp => .block (Stmt.bimapAll f g body) (f bp)
  | .elseIf test body bp rest =>
      .elseIf (test.bimap f g) (Stmt.bimapAll f g body) (f bp) (rest.bimap f g)

end

section Identity

variable (f : π → κ)

mutual

/-- Replacing the places alone keeps the names. -/
theorem Expr.bimap_id : ∀ e : Expr π, e.bimap f id = e.map f
  | .literal .. | .name .. => by simp [Expr.bimap, Expr.map]
  | .call _ _ _ arguments _ => by simp [Expr.bimap, Expr.map, Expr.bimapAll_id arguments]
  | .binary _ left right _ => by
      simp [Expr.bimap, Expr.map, Expr.bimap_id left, Expr.bimap_id right]
  | .negate inner _ | .group inner _ => by simp [Expr.bimap, Expr.map, Expr.bimap_id inner]

/-- To replace only the places of several expressions is to move them. -/
theorem Expr.bimapAll_id : ∀ es : List (Expr π), Expr.bimapAll f id es = Expr.mapAll f es
  | [] => by simp [Expr.bimapAll, Expr.mapAll]
  | e :: es => by simp [Expr.bimapAll, Expr.mapAll, Expr.bimap_id e, Expr.bimapAll_id es]

end

mutual

/-- To replace only the places of a statement is to move it. -/
theorem Stmt.bimap_id : ∀ s : Stmt π, s.bimap f id = s.map f
  | .comment .. | .blank _ => by simp [Stmt.bimap, Stmt.map]
  | .assign .. | .run .. => by simp [Stmt.bimap, Stmt.map, Expr.bimap_id]
  | .cond _ body _ alternative _ => by
      simp [Stmt.bimap, Stmt.map, Expr.bimap_id, Stmt.bimapAll_id body, Else.bimap_id alternative]

/-- To replace only the places of several statements is to move them. -/
theorem Stmt.bimapAll_id : ∀ ss : List (Stmt π), Stmt.bimapAll f id ss = Stmt.mapAll f ss
  | [] => by simp [Stmt.bimapAll, Stmt.mapAll]
  | s :: ss => by simp [Stmt.bimapAll, Stmt.mapAll, Stmt.bimap_id s, Stmt.bimapAll_id ss]

/-- To replace only the places after the body of a conditional is to move what stands there. -/
theorem Else.bimap_id : ∀ a : Else π, a.bimap f id = a.map f
  | .absent => by simp [Else.bimap, Else.map]
  | .block body _ => by simp [Else.bimap, Else.map, Stmt.bimapAll_id body]
  | .elseIf _ body _ rest => by
      simp [Else.bimap, Else.map, Expr.bimap_id, Stmt.bimapAll_id body, Else.bimap_id rest]

end

end Identity

section Fixed

variable {g : String → String}

mutual

/-- Replacing names that stay as they are changes nothing. -/
theorem Expr.NamesIn.bimap_eq : ∀ {e : Expr π}, (e.NamesIn fun name => g name = name) →
    e.bimap id g = e
  | .literal .., _ => by simp [Expr.bimap]
  | .name _ _, h => by
      rw [Expr.bimap, show g _ = _ from h]
      rfl
  | .call .., h => by simp [Expr.bimap, Expr.NamesInAll.bimapAll_eq h]
  | .binary .., h => by
      simp [Expr.bimap, Expr.NamesIn.bimap_eq h.1, Expr.NamesIn.bimap_eq h.2]
  | .negate inner _, h | .group inner _, h => by
      simp [Expr.bimap, Expr.NamesIn.bimap_eq (e := inner) h]

/-- Several expressions stay as they are if their names do. -/
theorem Expr.NamesInAll.bimapAll_eq : ∀ {es : List (Expr π)},
    Expr.NamesInAll (fun name => g name = name) es → Expr.bimapAll id g es = es
  | [], _ => by simp [Expr.bimapAll]
  | _ :: _, h => by
      simp [Expr.bimapAll, Expr.NamesIn.bimap_eq h.1, Expr.NamesInAll.bimapAll_eq h.2]

end

mutual

/-- A statement stays as it is if its names do. -/
theorem Stmt.NamesIn.bimap_eq : ∀ {s : Stmt π}, (s.NamesIn fun name => g name = name) →
    s.bimap id g = s
  | .comment .., _ | .blank _, _ => by simp [Stmt.bimap]
  | .assign .., h => by
      rw [Stmt.bimap, show g _ = _ from h.1, h.2.bimap_eq]
      rfl
  | .run value _, h => by simp [Stmt.bimap, Expr.NamesIn.bimap_eq (e := value) h]
  | .cond .., h => by
      simp [Stmt.bimap, h.1.bimap_eq, Stmt.NamesInAll.bimapAll_eq h.2.1,
        Else.NamesIn.bimap_eq h.2.2]

/-- Several statements stay as they are if their names do. -/
theorem Stmt.NamesInAll.bimapAll_eq : ∀ {ss : List (Stmt π)},
    Stmt.NamesInAll (fun name => g name = name) ss → Stmt.bimapAll id g ss = ss
  | [], _ => by simp [Stmt.bimapAll]
  | _ :: _, h => by
      simp [Stmt.bimapAll, Stmt.NamesIn.bimap_eq h.1, Stmt.NamesInAll.bimapAll_eq h.2]

/-- What follows the body of a conditional stays as it is if its names do. -/
theorem Else.NamesIn.bimap_eq : ∀ {a : Else π}, (a.NamesIn fun name => g name = name) →
    a.bimap id g = a
  | .absent, _ => by simp [Else.bimap]
  | .block .., h => by simp [Else.bimap, Stmt.NamesInAll.bimapAll_eq h]
  | .elseIf .., h => by
      simp [Else.bimap, h.1.bimap_eq, Stmt.NamesInAll.bimapAll_eq h.2.1,
        Else.NamesIn.bimap_eq h.2.2]

end

end Fixed

/-! ### Flattening -/

open Flatten

section Moving

variable {f : π → κ} {g : String → String} {n : Nat}

/-- Places and names are replaced in statements one after the other. -/
theorem Stmt.bimapAll_append (ss ts : List (Stmt π)) :
    Stmt.bimapAll f g (ss ++ ts) = Stmt.bimapAll f g ss ++ Stmt.bimapAll f g ts := by
  induction ss with
  | nil => rfl
  | cons s ss ih => rw [List.cons_append, Stmt.bimapAll, ih, Stmt.bimapAll, List.cons_append]

namespace Flatten

variable (f g n) in
/-- Two flattenings do alike but for places and names, the second with a count that is ahead
by `n`: their values are related, they put the same assignments before, and they name as many
temporaries. -/
def Moves (R : α → β → Prop) (p : Flatten π α) (q : Flatten κ β) : Prop :=
  ∀ k, R (p k).value (q (k + n)).value ∧
    (q (k + n)).before = Stmt.bimapAll f g (p k).before ∧
    (q (k + n)).temporaries = (p k).temporaries + n

namespace Moves

variable {R : α → β → Prop} {S : γ → δ → Prop}

/-- Related values are given alike. -/
theorem pure {a : α} {b : β} (h : R a b) :
    Moves f g n R (Pure.pure a : Flatten π α) (Pure.pure b : Flatten κ β) :=
  fun _ => ⟨h, by simp [Stmt.bimapAll], rfl⟩

/-- Sequences do alike if their parts do. -/
theorem bind {p : Flatten π α} {q : Flatten κ β} {u : α → Flatten π γ} {v : β → Flatten κ δ}
    (hp : Moves f g n R p q) (hu : ∀ a b, R a b → Moves f g n S (u a) (v b)) :
    Moves f g n S (p >>= u) (q >>= v) := by
  intro k
  rcases hp k with ⟨hvalue, hbefore, htemporaries⟩
  rcases hu _ _ hvalue (p k).temporaries with ⟨hvalue', hbefore', htemporaries'⟩
  rw [bind_apply, bind_apply, htemporaries]
  refine ⟨hvalue', ?_, htemporaries'⟩
  simp only [hbefore, hbefore', Stmt.bimapAll_append]

/-- Temporaries are named alike, in the second flattening with numbers that are ahead by `n`. -/
theorem lift (hg : ∀ k, g (temporary k) = temporary (k + n)) (value : Expr π) (place : π) :
    Moves f g n (fun e e' => e' = e.bimap f g) (Flatten.lift value place)
      (Flatten.lift (value.bimap f g) (f place)) := by
  intro k
  have hname : temporary (k + n + 1) = g (temporary (k + 1)) := by
    rw [hg, Nat.add_right_comm]
  simp only [Flatten.lift, Expr.bimap, Stmt.bimapAll, Stmt.bimap, hname, Nat.add_right_comm,
    and_self]

end Moves
end Flatten

namespace Expr

theorem isName_bimap (e : Expr π) : (e.bimap f g).isName = e.isName := by
  cases e <;> simp [bimap, isName]

theorem place_bimap (e : Expr π) : (e.bimap f g).place = f e.place := by
  cases e <;> simp [bimap, place]

theorem length_bimapAll (es : List (Expr π)) : (bimapAll f g es).length = es.length := by
  induction es with
  | nil => simp [bimapAll]
  | cons e es ih => simp [bimapAll, ih]

/-- The call that gives the value of a variable gives that of the replaced one. -/
theorem echo_bimap (depth : Nat) (holder : Expr π) (place : π) :
    (echo depth holder place).bimap f g = echo depth (holder.bimap f g) (f place) := by
  simp [echo, bimap, bimapAll]

variable (f g n) in
/-- An expression and the same expression with its places and names replaced. -/
abbrev MovesFlat (p : Flatten π (Expr π)) (q : Flatten κ (Expr κ)) : Prop :=
  Moves f g n (fun e e' => e' = e.bimap f g) p q

/-- Values are put into variables alike. -/
theorem toVariable_moves (hg : ∀ k, g (temporary k) = temporary (k + n)) (e : Expr π)
    {p : Flatten π (Expr π)} {q : Flatten κ (Expr κ)} (h : MovesFlat f g n p q) :
    MovesFlat f g n (e.toVariable p) ((e.bimap f g).toVariable q) := by
  unfold toVariable
  rw [isName_bimap]
  split
  · exact .pure rfl
  · apply h.bind
    rintro value _ rfl
    rw [place_bimap]
    exact .lift hg value e.place

/-- Values become words of an expansion alike. -/
theorem toWord_moves (hg : ∀ k, g (temporary k) = temporary (k + n)) (depth : Nat) (e : Expr π)
    {p : Flatten π (Expr π)} {q : Flatten κ (Expr κ)} (h : MovesFlat f g n p q) :
    MovesFlat f g n (e.toWord depth p) ((e.bimap f g).toWord depth q) := by
  have hecho : MovesFlat f g n (e.toVariable p >>= fun holder => pure (echo depth holder e.place))
      ((e.bimap f g).toVariable q >>= fun holder =>
        pure (echo depth holder (e.bimap f g).place)) := by
    apply (toVariable_moves hg e h).bind
    rintro holder _ rfl
    exact .pure (by rw [echo_bimap, place_bimap])
  cases e with
  | literal kind text p => exact .pure (by simp [bimap])
  | call form callee cp arguments p =>
      cases form with
      | plain =>
          rw [bimap]
          exact h
      | nested d => exact .pure (by simp [bimap])
  | name text p | binary op left right p | negate inner p | group inner p =>
      rw [bimap] at hecho ⊢
      exact hecho

mutual

/-- An expression with replaced places and names is flattened alike. -/
theorem flatten_moves (hg : ∀ k, g (temporary k) = temporary (k + n)) :
    ∀ (e : Expr π) (depth : Nat), MovesFlat f g n (e.flatten depth) ((e.bimap f g).flatten depth)
  | .literal kind text p, depth | .name text p, depth
  | .call (.nested d) callee cp arguments p, depth => by
      rw [bimap, flatten, flatten]
      exact .pure (by rw [bimap])
  | .call .plain callee cp arguments p, depth => by
      rw [bimap]
      cases hcallee : Expansion.ofName? callee with
      | none =>
          rw [flatten_command hcallee, flatten_command hcallee]
          apply (flattenAll_moves hg arguments (depth + 1)).bind
          rintro es _ rfl
          exact .pure (by rw [bimap])
      | some x =>
          by_cases harity : arguments.length = x.arity
          · cases arguments with
            | nil =>
                rw [bimapAll, flatten_noArguments hcallee, flatten_noArguments hcallee]
                exact .pure (by rw [bimap, bimapAll])
            | cons target words =>
                have harity' : (target.bimap f g :: bimapAll f g words).length = x.arity := by
                  rw [← harity, List.length_cons, length_bimapAll, List.length_cons]
                rw [bimapAll, flatten_expansion hcallee depth cp p harity,
                  flatten_expansion hcallee depth (f cp) (f p) harity']
                apply (toVariable_moves hg target (flatten_moves hg target (depth + 1))).bind
                rintro target' _ rfl
                apply (flattenWords_moves hg words (depth + 1)).bind
                rintro words' _ rfl
                exact .pure (by rw [bimap, bimapAll])
          · rw [flatten_misused hcallee depth cp p harity,
              flatten_misused hcallee depth (f cp) (f p) (by rwa [length_bimapAll])]
            exact .pure (by rw [bimap])
  | .binary op left right p, depth => by
      rw [bimap, flatten, flatten]
      apply (flatten_moves hg left (depth + 1)).bind
      rintro left' _ rfl
      apply (flatten_moves hg right (depth + 1)).bind
      rintro right' _ rfl
      exact .pure (by rw [bimap])
  | .negate inner p, depth | .group inner p, depth => by
      rw [bimap, flatten, flatten]
      apply (flatten_moves hg inner (depth + 1)).bind
      rintro inner' _ rfl
      exact .pure (by rw [bimap])

/-- Arguments are flattened alike. -/
theorem flattenAll_moves (hg : ∀ k, g (temporary k) = temporary (k + n)) :
    ∀ (es : List (Expr π)) (depth : Nat),
      Moves f g n (fun es es' => es' = bimapAll f g es) (flattenAll depth es)
        (flattenAll depth (bimapAll f g es))
  | [], depth => by
      rw [bimapAll, flattenAll, flattenAll]
      exact .pure (by rw [bimapAll])
  | e :: es, depth => by
      rw [bimapAll, flattenAll, flattenAll]
      apply (flatten_moves hg e depth).bind
      rintro e' _ rfl
      apply (flattenAll_moves hg es depth).bind
      rintro es' _ rfl
      exact .pure (by rw [bimapAll])

/-- The words of an expansion are flattened alike. -/
theorem flattenWords_moves (hg : ∀ k, g (temporary k) = temporary (k + n)) :
    ∀ (es : List (Expr π)) (depth : Nat),
      Moves f g n (fun es es' => es' = bimapAll f g es) (flattenWords depth es)
        (flattenWords depth (bimapAll f g es))
  | [], depth => by
      rw [bimapAll, flattenWords, flattenWords]
      exact .pure (by rw [bimapAll])
  | e :: es, depth => by
      rw [bimapAll, flattenWords, flattenWords]
      apply (toWord_moves hg depth e (flatten_moves hg e depth)).bind
      rintro e' _ rfl
      apply (flattenWords_moves hg es depth).bind
      rintro es' _ rfl
      exact .pure (by rw [bimapAll])

end

end Expr

mutual

/-- A statement with replaced places and names is flattened alike. -/
theorem Stmt.flatten_bimap (hg : ∀ k, g (temporary k) = temporary (k + n)) (k : Nat) :
    ∀ s : Stmt π, (s.bimap f g).flatten (k + n) =
      (Stmt.bimapAll f g (s.flatten k).1, (s.flatten k).2 + n)
  | .comment text p | .blank p => by simp [Stmt.bimap, Stmt.flatten, Stmt.bimapAll]
  | .assign target tp value p => by
      rcases Expr.flatten_moves (f := f) hg value 1 k with ⟨hvalue, hbefore, htemporaries⟩
      simp [Stmt.bimap, Stmt.flatten, hvalue, hbefore, htemporaries, Stmt.bimapAll_append,
        Stmt.bimapAll]
  | .run value p => by
      rcases Expr.flatten_moves (f := f) hg value 0 k with ⟨hvalue, hbefore, htemporaries⟩
      simp [Stmt.bimap, Stmt.flatten, hvalue, hbefore, htemporaries, Stmt.bimapAll_append,
        Stmt.bimapAll]
  | .cond test body bp alternative p => by
      rcases Expr.flatten_moves (f := f) hg test 1 k with ⟨hvalue, hbefore, htemporaries⟩
      simp [Stmt.bimap, Stmt.flatten, hvalue, hbefore, htemporaries,
        Stmt.flattenAll_bimap hg _ body, Else.flatten_bimap hg _ alternative,
        Stmt.bimapAll_append, Stmt.bimapAll]

/-- Statements are flattened alike with other places and names, from a count that is
ahead by `n`. -/
theorem Stmt.flattenAll_bimap (hg : ∀ k, g (temporary k) = temporary (k + n)) (k : Nat) :
    ∀ ss : List (Stmt π), Stmt.flattenAll (k + n) (Stmt.bimapAll f g ss) =
      (Stmt.bimapAll f g (Stmt.flattenAll k ss).1, (Stmt.flattenAll k ss).2 + n)
  | [] => by simp [Stmt.bimapAll, Stmt.flattenAll]
  | s :: ss => by
      simp [Stmt.bimapAll, Stmt.flattenAll, Stmt.flatten_bimap hg k s,
        Stmt.flattenAll_bimap hg _ ss, Stmt.bimapAll_append]

/-- What follows the body of a conditional is flattened alike with other places and names, from a
count that is ahead by `n`. -/
theorem Else.flatten_bimap (hg : ∀ k, g (temporary k) = temporary (k + n)) (k : Nat) :
    ∀ a : Else π, (a.bimap f g).flatten (k + n) =
      ⟨(a.flatten k).value.bimap f g, Stmt.bimapAll f g (a.flatten k).before,
        (a.flatten k).temporaries + n⟩
  | .absent => by simp [Else.bimap, Else.flatten, Stmt.bimapAll]
  | .block body bp => by
      simp [Else.bimap, Else.flatten, Stmt.flattenAll_bimap hg k body, Stmt.bimapAll]
  | .elseIf test body bp rest => by
      rcases Expr.flatten_moves (f := f) hg test 1 k with ⟨hvalue, hbefore, htemporaries⟩
      simp [Else.bimap, Else.flatten, hvalue, hbefore, htemporaries,
        Stmt.flattenAll_bimap hg _ body, Else.flatten_bimap hg _ rest, Stmt.bimapAll_append]

end

end Moving

/-! ### Renumbering temporaries -/

namespace Flatten

/-- The name of a temporary with its number increased, and any other name as it is. -/
def renumber (n : Nat) (name : String) : String :=
  if isTemporary name then temporary (Nat.ofDigitChars 10 (name.toList.drop 4) 0 + n) else name

/-- The number of a temporary is increased. -/
theorem renumber_temporary (n k : Nat) : renumber n (temporary k) = temporary (k + n) := by
  have hdigits : (temporary k).toList.drop 4 = Nat.toDigits 10 k := by
    rw [toList_temporary]
    rfl
  rw [renumber, isTemporary_temporary, if_pos rfl, hdigits, Nat.ofDigitChars_ten_toDigits]

/-- A name that is no temporary stays as it is. -/
theorem renumber_of_not_temporary {name : String} (h : isTemporary name = false) (n : Nat) :
    renumber n name = name := by
  rw [renumber, h]
  rfl

end Flatten

namespace Script

/-- Increase the numbers of the temporaries of a script. -/
def renumber (n : Nat) (s : Script π) : Script π :=
  ⟨Stmt.bimapAll id (Flatten.renumber n) s.statements⟩

/-- From a count that is ahead by `n`, a script without temporaries is flattened to the same
script with its temporaries renumbered. -/
theorem flattenFrom_add {s : Script π} (h : Stmt.AllVisible s.statements) (k n : Nat) :
    s.flattenFrom (k + n) = ((s.flattenFrom k).1.renumber n, (s.flattenFrom k).2 + n) := by
  have hsame : Stmt.bimapAll id (Flatten.renumber n) s.statements = s.statements :=
    (h.imp fun name hname => renumber_of_not_temporary hname n).bimapAll_eq
  have hflatten := Stmt.flattenAll_bimap (f := id) (renumber_temporary n) k s.statements
  rw [hsame] at hflatten
  simp only [flattenFrom, renumber, hflatten]

end Script
end Shellward
