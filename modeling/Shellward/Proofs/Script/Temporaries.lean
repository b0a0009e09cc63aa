import Mathlib.Data.List.Nodup
import Shellward.Proofs.Grammar.Scripts
import Shellward.Proofs.Script.Flattening

/-!
# Temporaries are fresh and used once

Flattening names a temporary where it makes a variable of a value, and puts the assignment
before the statement that uses the variable.  What it has named so far and not used yet is
pending: the names that the value flattened so far reads.  Each step keeps the balance: every
temporary named is assigned once, and read once by a statement after that or by what is
pending.

Main results:

- Theorem `Expr.flatten_supplies`: the assignments put before an expression supply what it
  is flattened to with its temporaries.
- Theorem `Stmt.flattenAll_supplied`: flattened statements use up their temporaries.
- Theorem `Script.flatten_uses_temporaries_once`: the same for every script that parses, and
  no name of the script is that of a temporary in upper case.
-/

namespace Shellward

open Flatten

variable {π α β : Type}

/-! ### The names that statements set and read -/

mutual

/-- The names that an expression reads, in order. -/
def Expr.reads : Expr π → List String
  | .literal .. => []
  | .name text _ => [text]
  | .call _ _ _ arguments _ => Expr.allReads arguments
  | .binary _ left right _ => left.reads ++ right.reads
  | .negate inner _ | .group inner _ => inner.reads

/-- The names that several expressions read. -/
def Expr.allReads : List (Expr π) → List String
  | [] => []
  | e :: es => e.reads ++ Expr.allReads es

end

/-- The names that the conditions after the first one read. -/
def Else.reads : Else π → List String
  | .absent | .block .. => []
  | .elseIf test _ _ rest => test.reads ++ rest.reads

namespace Stmt

/-- The name that a statement sets, if it is an assignment. -/
def targets : Stmt π → List String
  | .assign target _ _ _ => [target]
  | .comment .. | .blank _ | .run .. | .cond .. => []

/-- The names that a statement reads itself: in its expression or in its conditions, but not
in its blocks. -/
def reads : Stmt π → List String
  | .comment .. | .blank _ => []
  | .assign _ _ value _ | .run value _ => value.reads
  | .cond test _ _ alternative _ => test.reads ++ alternative.reads

end Stmt

mutual

/-- The lists of statements in the blocks of a statement, at any depth. -/
def Stmt.blocks : Stmt π → List (List (Stmt π))
  | .comment .. | .blank _ | .assign .. | .run .. => []
  | .cond _ body _ alternative _ => body :: Stmt.allBlocks body ++ alternative.blocks

/-- The lists of statements in the blocks of several statements. -/
def Stmt.allBlocks : List (Stmt π) → List (List (Stmt π))
  | [] => []
  | s :: ss => s.blocks ++ Stmt.allBlocks ss

/-- The lists of statements in the blocks after the first one of a conditional. -/
def Else.blocks : Else π → List (List (Stmt π))
  | .absent => []
  | .block body _ => body :: Stmt.allBlocks body
  | .elseIf _ body _ rest => body :: Stmt.allBlocks body ++ rest.blocks

end

/-- The blocks in statements are those in the first ones and then those in the others. -/
theorem Stmt.allBlocks_append (ss ts : List (Stmt π)) :
    Stmt.allBlocks (ss ++ ts) = Stmt.allBlocks ss ++ Stmt.allBlocks ts := by
  induction ss with
  | nil => rfl
  | cons s ss ih => rw [List.cons_append, Stmt.allBlocks, Stmt.allBlocks, ih, List.append_assoc]

theorem Stmt.allBlocks_concat (ss : List (Stmt π)) (s : Stmt π) :
    Stmt.allBlocks (ss ++ [s]) = Stmt.allBlocks ss ++ s.blocks := by
  rw [Stmt.allBlocks_append, Stmt.allBlocks, Stmt.allBlocks, List.append_nil]

namespace Script

/-- The lists of statements of a script: its own and those of the blocks in it.  Each
statement of the script is in one of them. -/
def lists (s : Script π) : List (List (Stmt π)) :=
  s.statements :: Stmt.allBlocks s.statements

/-- The names that the assignments of a script set. -/
def targets (s : Script π) : List String :=
  s.lists.flatten.flatMap Stmt.targets

/-- The names that the expressions of a script read. -/
def reads (s : Script π) : List String :=
  s.lists.flatten.flatMap Stmt.reads

end Script

/-! ### The balance of temporaries -/

/-- One for the numbers above `n` and up to `n'`, and zero for the others. -/
def within (n n' k : Nat) : Nat :=
  if n < k ∧ k ≤ n' then 1 else 0

theorem within_self (n k : Nat) : within n n k = 0 :=
  if_neg (by omega)

/-- The numbers up to a middle one and those from there on are those of the whole range. -/
theorem within_add {n m n' : Nat} (h : n ≤ m) (h' : m ≤ n') (k : Nat) :
    within n m k + within m n' k = within n n' k := by
  unfold within
  split <;> split <;> split <;> omega

/-- Among some statements one sets a name, and a later one reads it or it is pending. -/
def ReadLater (name : String) (ss : List (Stmt π)) (pending : List String) : Prop :=
  ∃ before s after, ss = before ++ s :: after ∧ name ∈ s.targets ∧
    ((∃ t ∈ after, name ∈ t.reads) ∨ name ∈ pending)

/-- The temporaries with numbers above `n` and up to `n'` are each set once by the statements
`ss`, those in their blocks or those of the pending `blocks`, and each read once by them or by
what is pending, after the statement that sets it and in the same list.  No other temporary is
set or read. -/
structure Supplied (n n' : Nat) (ss : List (Stmt π)) (pending : List String)
    (blocks : List (List (Stmt π))) : Prop where
  le : n ≤ n'
  targets : ∀ k, ((ss ++ (Stmt.allBlocks ss ++ blocks).flatten).flatMap Stmt.targets).count
    (temporary k) = within n n' k
  reads : ∀ k, ((ss ++ (Stmt.allBlocks ss ++ blocks).flatten).flatMap Stmt.reads ++ pending).count
    (temporary k) = within n n' k
  later : ∀ k, temporary k ∈ ss.flatMap Stmt.targets → ReadLater (temporary k) ss pending
  inside : ∀ list ∈ Stmt.allBlocks ss ++ blocks, ∀ k, temporary k ∈ list.flatMap Stmt.targets →
    ReadLater (temporary k) list []

/-- Names that are no temporaries do not count as temporaries. -/
theorem count_of_visible {names : List String} (h : ∀ name ∈ names, isTemporary name = false)
    (k : Nat) : names.count (temporary k) = 0 := by
  rw [List.count_eq_zero]
  intro hmem
  have hfalse := h _ hmem
  rw [isTemporary_temporary] at hfalse
  exact absurd hfalse (by simp)

theorem count_temporary (m k : Nat) :
    [temporary (m + 1)].count (temporary k) = within m (m + 1) k := by
  rw [List.count_singleton, within]
  by_cases h : k = m + 1
  · simp [h]
  · have hne : temporary (m + 1) ≠ temporary k := fun heq => h (temporary_injective heq).symm
    rw [if_neg (by simpa using hne), if_neg (by omega)]

namespace ReadLater

variable {name : String} {ss ts : List (Stmt π)} {pending pending' : List String}

/-- What is read later in some statements is read later if more follow. -/
theorem append_right (h : ReadLater name ss pending) :
    ReadLater name (ss ++ ts) (pending ++ pending') := by
  rcases h with ⟨before, s, after, rfl, hname, hread⟩
  refine ⟨before, s, after ++ ts, by simp, hname, ?_⟩
  rcases hread with ⟨t, ht, hread⟩ | hread
  · exact .inl ⟨t, List.mem_append_left ts ht, hread⟩
  · exact .inr (List.mem_append_left pending' hread)

/-- What is read later in some statements is read later if others come before. -/
theorem append_left (h : ReadLater name ts pending') :
    ReadLater name (ss ++ ts) (pending ++ pending') := by
  rcases h with ⟨before, s, after, rfl, hname, hread⟩
  exact ⟨ss ++ before, s, after, by simp, hname, hread.imp_right (List.mem_append_right pending)⟩

/-- What is pending is read by a statement that reads all of it. -/
theorem concat {s : Stmt π} (h : ReadLater name ss s.reads) :
    ReadLater name (ss ++ [s]) pending := by
  rcases h with ⟨before, t, after, rfl, hname, hread⟩
  refine ⟨before, t, after ++ [s], by simp, hname, .inl ?_⟩
  rcases hread with ⟨u, hu, hread⟩ | hread
  · exact ⟨u, List.mem_append_left [s] hu, hread⟩
  · exact ⟨s, by simp, hread⟩

end ReadLater

namespace Supplied

variable {n m n' : Nat} {ss ts : List (Stmt π)} {pending pending' : List String}
variable {blocks blocks' : List (List (Stmt π))}

/-- Where no temporary is named, none is used. -/
theorem of_visible (n : Nat) (h : ∀ name ∈ pending, isTemporary name = false) :
    Supplied n n ([] : List (Stmt π)) pending [] := by
  refine ⟨Nat.le_refl n, fun k => ?_, fun k => ?_, by simp, by simp [Stmt.allBlocks]⟩
  · rw [within_self]
    rfl
  · rw [within_self]
    exact count_of_visible h k

/-- One part is supplied after the other. -/
theorem append (h : Supplied n m ss pending blocks) (h' : Supplied m n' ts pending' blocks') :
    Supplied n n' (ss ++ ts) (pending ++ pending') (blocks ++ blocks') := by
  refine ⟨Nat.le_trans h.le h'.le, fun k => ?_, fun k => ?_, fun k hk => ?_, fun list hlist => ?_⟩
  · have htargets := h.targets k
    have htargets' := h'.targets k
    rw [← within_add h.le h'.le, ← htargets, ← htargets']
    simp only [Stmt.allBlocks_append, List.flatten_append, List.flatMap_append, List.count_append]
    omega
  · have hreads := h.reads k
    have hreads' := h'.reads k
    rw [← within_add h.le h'.le, ← hreads, ← hreads']
    simp only [Stmt.allBlocks_append, List.flatten_append, List.flatMap_append, List.count_append]
    omega
  · rw [List.flatMap_append, List.mem_append] at hk
    rcases hk with hk | hk
    · exact (h.later k hk).append_right
    · exact (h'.later k hk).append_left
  · have hmem : list ∈ Stmt.allBlocks ss ++ blocks ∨ list ∈ Stmt.allBlocks ts ++ blocks' := by
      simp only [Stmt.allBlocks_append, List.mem_append] at hlist ⊢
      grind
    rcases hmem with hmem | hmem
    · exact h.inside list hmem
    · exact h'.inside list hmem

/-- A statement reads all that is pending and has the pending blocks.  The temporaries that it
sets are pending next. -/
theorem concat {s : Stmt π} (h : Supplied n m ss s.reads s.blocks) (hle : m ≤ n')
    (htargets : ∀ k, s.targets.count (temporary k) = within m n' k)
    (hpending : ∀ k, pending.count (temporary k) = within m n' k) :
    Supplied n n' (ss ++ [s]) pending [] := by
  have hblocks : Stmt.allBlocks (ss ++ [s]) ++ [] = Stmt.allBlocks ss ++ s.blocks := by
    rw [Stmt.allBlocks_concat, List.append_nil]
  refine ⟨Nat.le_trans h.le hle, fun k => ?_, fun k => ?_, fun k hk => ?_, hblocks ▸ h.inside⟩
  · rw [hblocks, ← within_add h.le hle, ← h.targets k, ← htargets k]
    simp only [List.flatMap_append, List.count_append, List.flatMap_cons, List.flatMap_nil,
      List.append_nil]
    omega
  · rw [hblocks, ← within_add h.le hle, ← h.reads k, ← hpending k]
    simp only [List.flatMap_append, List.count_append, List.flatMap_cons, List.flatMap_nil,
      List.append_nil]
    omega
  · rw [List.flatMap_append, List.mem_append] at hk
    rcases hk with hk | hk
    · exact (h.later k hk).concat
    · -- What the last statement sets is not read yet, so it has to be pending.
      simp only [List.flatMap_cons, List.flatMap_nil, List.append_nil] at hk
      refine ⟨ss, s, [], rfl, hk, .inr ?_⟩
      rw [← List.one_le_count_iff, hpending, ← htargets, List.one_le_count_iff]
      exact hk

/-- The statement that uses a value names no temporary. -/
theorem close {s : Stmt π} (h : Supplied n m ss s.reads s.blocks)
    (htargets : ∀ name ∈ s.targets, isTemporary name = false) :
    Supplied n m (ss ++ [s]) [] [] := by
  refine h.concat (Nat.le_refl m) (fun k => ?_) (fun k => ?_)
  · rw [within_self, count_of_visible htargets]
  · rw [within_self]
    rfl

/-- The assignment to the next temporary uses a value and makes the temporary pending. -/
theorem lift {value : Expr π} (h : Supplied n m ss value.reads []) (p : π) :
    Supplied n (m + 1) (ss ++ [.assign (temporary (m + 1)) p value p]) [temporary (m + 1)] [] :=
  concat (s := .assign (temporary (m + 1)) p value p) h (Nat.le_succ m) (count_temporary m)
    (count_temporary m)

/-- Statements with nothing pending may stand in a block. -/
theorem enclose (h : Supplied n m ss [] []) :
    Supplied n m ([] : List (Stmt π)) [] (ss :: Stmt.allBlocks ss) := by
  rcases h with ⟨hle, htargets, hreads, hlater, hinside⟩
  simp only [List.append_nil] at htargets hreads hinside
  refine ⟨hle, htargets, fun k => ?_, by simp, fun list hlist => ?_⟩
  · rw [List.append_nil]
    exact hreads k
  · rcases List.mem_cons.mp hlist with rfl | hlist
    · exact hlater
    · exact hinside list hlist

/-- A condition, its block and what follows the block: both conditions are pending, and the
block has used up its own temporaries. -/
theorem branch {l : Nat} {body : List (Stmt π)} (htest : Supplied n m ss pending [])
    (hbody : Supplied m l body [] []) (hrest : Supplied l n' ts pending' blocks') :
    Supplied n n' (ss ++ ts) (pending ++ pending') (body :: Stmt.allBlocks body ++ blocks') := by
  have hall := (htest.append hbody.enclose).append hrest
  rwa [List.append_nil, List.append_nil, List.nil_append] at hall

end Supplied

/-! ### Expressions -/

mutual

/-- The names in an expression are those that it reads. -/
theorem Expr.namesIn_iff {P : String → Prop} :
    ∀ e : Expr π, e.NamesIn P ↔ ∀ name ∈ e.reads, P name
  | .literal .. => by simp [Expr.NamesIn, Expr.reads]
  | .name text _ => by simp [Expr.NamesIn, Expr.reads]
  | .call _ _ _ arguments _ => by
      rw [Expr.NamesIn, Expr.reads, Expr.namesInAll_iff_reads arguments]
  | .binary _ left right _ => by
      rw [Expr.NamesIn, Expr.reads, Expr.namesIn_iff left, Expr.namesIn_iff right,
        List.forall_mem_append]
  | .negate inner _ => by rw [Expr.NamesIn, Expr.reads, Expr.namesIn_iff inner]
  | .group inner _ => by rw [Expr.NamesIn, Expr.reads, Expr.namesIn_iff inner]

/-- The names of several expressions have a property exactly if all names that are
read have it. -/
theorem Expr.namesInAll_iff_reads {P : String → Prop} :
    ∀ es : List (Expr π), Expr.NamesInAll P es ↔ ∀ name ∈ Expr.allReads es, P name
  | [] => by simp [Expr.NamesInAll, Expr.allReads]
  | e :: es => by
      rw [Expr.NamesInAll, Expr.allReads, Expr.namesIn_iff e, Expr.namesInAll_iff_reads es,
        List.forall_mem_append]

end

namespace Flatten

/-- What a value flattened to reads is what was carried along and what the assignments put
before supply. -/
def Supplies (carried : List String) (reads : α → List String) (f : Flatten π α) : Prop :=
  ∀ n, ∃ own, reads (f n).value = carried ++ own ∧
    Supplied n (f n).temporaries (f n).before own []

namespace Supplies

variable {carried : List String} {reads : α → List String} {reads' : β → List String}

/-- A value without temporaries needs no supply. -/
theorem pure {a : α} (h : ∀ name ∈ reads a, isTemporary name = false) :
    Supplies [] reads (Pure.pure a : Flatten π α) :=
  fun n => ⟨reads a, rfl, .of_visible n h⟩

/-- What is carried along makes up a value. -/
theorem carried_pure {a : α} (h : reads a = carried) :
    Supplies carried reads (Pure.pure a : Flatten π α) :=
  fun n => ⟨[], by simpa using h, .of_visible n (by simp)⟩

/-- A sequence supplies what its parts supply. -/
theorem bind {f : Flatten π α} {g : α → Flatten π β} (hf : Supplies carried reads f)
    (hg : ∀ a, Supplies (reads a) reads' (g a)) : Supplies carried reads' (f >>= g) := by
  intro n
  rcases hf n with ⟨own, hown, hsupplied⟩
  rcases hg (f n).value (f n).temporaries with ⟨own', hown', hsupplied'⟩
  refine ⟨own ++ own', ?_, hsupplied.append hsupplied'⟩
  rw [bind_apply, ← List.append_assoc, ← hown, hown']

/-- What a part reads comes after what is carried along. -/
theorem carry {f : Flatten π α} (hf : Supplies [] reads f) (carried : List String) :
    Supplies carried (fun a => carried ++ reads a) f := by
  intro n
  rcases hf n with ⟨own, hown, hsupplied⟩
  exact ⟨own, congrArg (carried ++ ·) hown, hsupplied⟩

/-- A value is assigned to a temporary, which is read instead. -/
theorem lift {f : Flatten π (Expr π)} (hf : Supplies [] Expr.reads f) (p : π) :
    Supplies [] Expr.reads (f >>= fun value => Flatten.lift value p) := by
  intro n
  rcases hf n with ⟨own, hown, hsupplied⟩
  rw [List.nil_append] at hown
  rw [← hown] at hsupplied
  exact ⟨[temporary ((f n).temporaries + 1)], rfl, hsupplied.lift p⟩

end Supplies
end Flatten

namespace Expr

variable {e : Expr π} {flat : Flatten π (Expr π)}

/-- A value that is put into a variable is supplied by one more temporary, or is a name. -/
theorem toVariable_supplies (he : e.Visible) (hflat : Supplies [] reads flat) :
    Supplies [] reads (e.toVariable flat) := by
  unfold toVariable
  split
  · exact .pure (e.namesIn_iff.mp he)
  · exact hflat.lift e.place

/-- What becomes a word of an expansion is supplied. -/
theorem toWord_supplies (depth : Nat) (he : e.Visible) (hflat : Supplies [] reads flat) :
    Supplies [] reads (e.toWord depth flat) := by
  unfold toWord
  split
  · exact .pure (namesIn_iff _ |>.mp he)
  · exact .pure (namesIn_iff _ |>.mp he)
  · exact hflat
  · apply (toVariable_supplies he hflat).bind
    intro holder
    exact .carried_pure (by simp [echo, reads, allReads])

mutual

/-- The assignments put before an expression supply what it is flattened to. -/
theorem flatten_supplies : ∀ (e : Expr π) (depth : Nat), e.Visible →
    Supplies [] reads (e.flatten depth)
  | .literal kind text p, depth, he => by
      rw [flatten]
      exact .pure ((namesIn_iff _).mp he)
  | .name text p, depth, he => by
      rw [flatten]
      exact .pure ((namesIn_iff _).mp he)
  | .call (.nested d) callee cp arguments p, depth, he => by
      rw [flatten]
      exact .pure ((namesIn_iff _).mp he)
  | .call .plain callee cp arguments p, depth, he => by
      rcases flatten_call depth callee cp arguments p with heq | ⟨target, words, rfl, heq⟩ | heq
      · rw [heq]
        apply (flattenAll_supplies arguments (depth + 1) he).bind
        intro arguments'
        exact .carried_pure (by rw [reads])
      · rw [heq]
        apply (toVariable_supplies he.1 (flatten_supplies target (depth + 1) he.1)).bind
        intro target'
        apply ((flattenWords_supplies words (depth + 1) he.2).carry target'.reads).bind
        intro words'
        exact .carried_pure (by rw [reads, allReads])
      · rw [heq]
        exact .pure ((namesIn_iff _).mp he)
  | .binary op left right p, depth, he => by
      rw [flatten]
      apply (flatten_supplies left (depth + 1) he.1).bind
      intro left'
      apply ((flatten_supplies right (depth + 1) he.2).carry left'.reads).bind
      intro right'
      exact .carried_pure (by rw [reads])
  | .negate inner p, depth, he => by
      rw [flatten]
      apply (flatten_supplies inner (depth + 1) he).bind
      intro inner'
      exact .carried_pure (by rw [reads])
  | .group inner p, depth, he => by
      rw [flatten]
      apply (flatten_supplies inner (depth + 1) he).bind
      intro inner'
      exact .carried_pure (by rw [reads])

/-- Arguments are supplied. -/
theorem flattenAll_supplies : ∀ (es : List (Expr π)) (depth : Nat), AllVisible es →
    Supplies [] allReads (flattenAll depth es)
  | [], depth, _ => by
      rw [flattenAll]
      exact .carried_pure (by rw [allReads])
  | e :: es, depth, hes => by
      rw [flattenAll]
      apply (flatten_supplies e depth hes.1).bind
      intro e'
      apply ((flattenAll_supplies es depth hes.2).carry e'.reads).bind
      intro es'
      exact .carried_pure (by rw [allReads])

/-- The words of an expansion are supplied. -/
theorem flattenWords_supplies : ∀ (es : List (Expr π)) (depth : Nat), AllVisible es →
    Supplies [] allReads (flattenWords depth es)
  | [], depth, _ => by
      rw [flattenWords]
      exact .carried_pure (by rw [allReads])
  | e :: es, depth, hes => by
      rw [flattenWords]
      apply (toWord_supplies depth hes.1 (flatten_supplies e depth hes.1)).bind
      intro e'
      apply ((flattenWords_supplies es depth hes.2).carry e'.reads).bind
      intro es'
      exact .carried_pure (by rw [allReads])

end

/-- The same, for one expression and the temporaries named before it. -/
theorem flatten_supplied (e : Expr π) (depth n : Nat) (he : e.Visible) :
    Supplied n (e.flatten depth n).temporaries (e.flatten depth n).before
      (e.flatten depth n).value.reads [] := by
  rcases flatten_supplies e depth he n with ⟨own, hown, hsupplied⟩
  rwa [hown, List.nil_append]

end Expr

/-! ### Statements -/

mutual

/-- A flattened statement uses up the temporaries named for it. -/
theorem Stmt.flatten_supplied : ∀ (s : Stmt π) (n : Nat), s.Visible →
    Supplied n (s.flatten n).2 (s.flatten n).1 [] []
  | .comment text p, n, _ => by
      rw [Stmt.flatten]
      exact Supplied.close (s := .comment text p) (.of_visible n (by simp [Stmt.reads]))
        (by simp [Stmt.targets])
  | .blank p, n, _ => by
      rw [Stmt.flatten]
      exact Supplied.close (s := .blank p) (.of_visible n (by simp [Stmt.reads]))
        (by simp [Stmt.targets])
  | .assign target tp value p, n, hs => by
      rw [Stmt.flatten]
      refine Supplied.close (s := .assign ..) (value.flatten_supplied 1 n hs.2) ?_
      simpa [Stmt.targets] using hs.1
  | .run value p, n, hs => by
      rw [Stmt.flatten]
      exact Supplied.close (s := .run ..) (value.flatten_supplied 0 n hs) (by simp [Stmt.targets])
  | .cond test body bp alternative p, n, hs => by
      rw [Stmt.flatten]
      -- The assignments for all conditions stand before the statement, so their temporaries
      -- are pending while those of the block, numbered in between, are used up inside it.
      have hbranch := (test.flatten_supplied 1 n hs.1).branch
        (Stmt.flattenAll_supplied body _ hs.2.1) (Else.flatten_supplied alternative _ hs.2.2)
      exact Supplied.close (s := .cond ..) hbranch (by simp [Stmt.targets])

/-- Flattened statements use up the temporaries named for them. -/
theorem Stmt.flattenAll_supplied : ∀ (ss : List (Stmt π)) (n : Nat), Stmt.AllVisible ss →
    Supplied n (Stmt.flattenAll n ss).2 (Stmt.flattenAll n ss).1 [] []
  | [], n, _ => by
      rw [Stmt.flattenAll]
      exact .of_visible n (by simp)
  | s :: ss, n, hss => by
      rw [Stmt.flattenAll]
      exact (Stmt.flatten_supplied s n hss.1).append
        (Stmt.flattenAll_supplied ss (s.flatten n).2 hss.2)

/-- The assignments put before a conditional supply the conditions after the first one, and
the blocks there use up their own temporaries. -/
theorem Else.flatten_supplied : ∀ (alternative : Else π) (n : Nat), alternative.Visible →
    Supplied n (alternative.flatten n).temporaries (alternative.flatten n).before
      (alternative.flatten n).value.reads (alternative.flatten n).value.blocks
  | .absent, n, _ => by
      rw [Else.flatten]
      exact .of_visible n (by simp [Else.reads])
  | .block body bp, n, ha => by
      rw [Else.flatten]
      exact (Stmt.flattenAll_supplied body n ha).enclose
  | .elseIf test body bp rest, n, ha => by
      rw [Else.flatten]
      exact (test.flatten_supplied 1 n ha.1).branch (Stmt.flattenAll_supplied body _ ha.2.1)
        (Else.flatten_supplied rest _ ha.2.2)

end

/-! ### The names of a script -/

section Names

variable {P : String → Prop}

theorem Else.NamesIn.forall_reads {alternative : Else π} (h : alternative.NamesIn P) :
    ∀ name ∈ alternative.reads, P name := by
  induction alternative using Else.reads.induct with
  | case1 => simp [Else.reads]
  | case2 => simp [Else.reads]
  | case3 test body bp rest ih =>
      rw [Else.reads, List.forall_mem_append]
      exact ⟨test.namesIn_iff.mp h.1, ih h.2.2⟩

/-- The names that a statement sets and reads itself are among its names. -/
theorem Stmt.NamesIn.forall_own {s : Stmt π} (h : s.NamesIn P) :
    (∀ name ∈ s.targets, P name) ∧ ∀ name ∈ s.reads, P name := by
  cases s with
  | comment => simp [Stmt.targets, Stmt.reads]
  | blank => simp [Stmt.targets, Stmt.reads]
  | assign target tp value p =>
      exact ⟨by simpa [Stmt.targets] using h.1, value.namesIn_iff.mp h.2⟩
  | run value p => exact ⟨by simp [Stmt.targets], value.namesIn_iff.mp h⟩
  | cond test body bp alternative p =>
      refine ⟨by simp [Stmt.targets], ?_⟩
      rw [Stmt.reads, List.forall_mem_append]
      exact ⟨test.namesIn_iff.mp h.1, h.2.2.forall_reads⟩

mutual

/-- The names in the blocks of a statement are among its names. -/
theorem Stmt.NamesIn.forall_blocks :
    ∀ {s : Stmt π}, s.NamesIn P → ∀ list ∈ s.blocks, Stmt.NamesInAll P list
  | .comment .., _ => by simp [Stmt.blocks]
  | .blank _, _ => by simp [Stmt.blocks]
  | .assign .., _ => by simp [Stmt.blocks]
  | .run .., _ => by simp [Stmt.blocks]
  | .cond .., h => by
      rw [Stmt.blocks, List.forall_mem_append, List.forall_mem_cons]
      exact ⟨⟨h.2.1, Stmt.NamesInAll.forall_allBlocks h.2.1⟩, Else.NamesIn.forall_blocks h.2.2⟩

theorem Stmt.NamesInAll.forall_allBlocks :
    ∀ {ss : List (Stmt π)}, Stmt.NamesInAll P ss → ∀ list ∈ Stmt.allBlocks ss,
      Stmt.NamesInAll P list
  | [], _ => by simp [Stmt.allBlocks]
  | _ :: _, h => by
      rw [Stmt.allBlocks, List.forall_mem_append]
      exact ⟨Stmt.NamesIn.forall_blocks h.1, Stmt.NamesInAll.forall_allBlocks h.2⟩

theorem Else.NamesIn.forall_blocks :
    ∀ {alternative : Else π}, alternative.NamesIn P → ∀ list ∈ alternative.blocks,
      Stmt.NamesInAll P list
  | .absent, _ => by simp [Else.blocks]
  | .block .., h => by
      rw [Else.blocks, List.forall_mem_cons]
      exact ⟨h, Stmt.NamesInAll.forall_allBlocks h⟩
  | .elseIf .., h => by
      rw [Else.blocks, List.forall_mem_append, List.forall_mem_cons]
      exact ⟨⟨h.2.1, Stmt.NamesInAll.forall_allBlocks h.2.1⟩, Else.NamesIn.forall_blocks h.2.2⟩

end

/-- The names that a script sets or reads are the names in its tree. -/
theorem Script.NamesIn.forall_mem {s : Script π} (h : s.NamesIn P) :
    ∀ name ∈ s.targets ++ s.reads, P name := by
  have hlists : ∀ list ∈ s.lists, Stmt.NamesInAll P list := by
    rw [Script.lists, List.forall_mem_cons]
    exact ⟨h, Stmt.NamesInAll.forall_allBlocks h⟩
  have hown : ∀ t ∈ s.lists.flatten, t.NamesIn P := by
    intro t ht
    rcases List.mem_flatten.mp ht with ⟨list, hlist, ht⟩
    exact Stmt.namesInAll_iff.mp (hlists list hlist) t ht
  rw [List.forall_mem_append]
  constructor
  · intro name hname
    rcases List.mem_flatMap.mp hname with ⟨t, ht, hname⟩
    exact (hown t ht).forall_own.1 name hname
  · intro name hname
    rcases List.mem_flatMap.mp hname with ⟨t, ht, hname⟩
    exact (hown t ht).forall_own.2 name hname

end Names

/-- A letter in upper case is no underscore. -/
theorem Text.toUpper_ne_underscore {c : Char} (h : c.isAlpha = true) : c.toUpper ≠ '_' := by
  have hall : ∀ n < 128, (Char.ofNat n).isAlpha = true → (Char.ofNat n).toUpper ≠ '_' := by
    decide +kernel
  have hascii : c.toNat < 128 := by
    rcases (Bool.or_eq_true c.isUpper c.isLower).mp h with hcase | hcase
    · exact Nat.lt_of_le_of_lt (of_decide_eq_true hcase).2 (by decide)
    · exact Nat.lt_of_le_of_lt (of_decide_eq_true (Bool.and_eq_true_iff.mp hcase).2) (by decide)
  rw [← Char.ofNat_toNat c] at h ⊢
  exact hall c.toNat hascii h

/-- In upper case too, a name that begins with a letter is no temporary. -/
theorem Flatten.upper_temporary_ne {name : String} (h : Text.BeginsWithLetter name)
    (number : Nat) : Text.upper (temporary number) ≠ Text.upper name := by
  intro heq
  rcases h with ⟨c, hhead, halpha⟩
  have hchars : ((temporary number).toList.map Char.toUpper).head? =
      (name.toList.map Char.toUpper).head? :=
    congrArg List.head? (String.ofList_injective heq)
  rw [List.head?_map, List.head?_map, toList_temporary, hhead] at hchars
  exact Text.toUpper_ne_underscore halpha (Option.some.inj hchars).symm

/-! ### Scripts -/

namespace Script

/-- A name is set by one assignment of a script, and read once: by a later statement of the
list that the assignment is in, in its own expression or one of its conditions. -/
structure UsesOnce (s : Script π) (name : String) : Prop where
  set : s.targets.count name = 1
  read : s.reads.count name = 1
  later : ∃ list ∈ s.lists, ∃ before a after, list = before ++ a :: after ∧
    name ∈ a.targets ∧ ∃ t ∈ after, name ∈ t.reads

/-- A flattened script sets each of its temporaries once, and no other one. -/
theorem count_targets_flatten {s : Script π} (h : Stmt.AllVisible s.statements) (k : Nat) :
    s.flatten.targets.count (temporary k) = within 0 (s.flattenFrom 0).2 k := by
  have htargets := (Stmt.flattenAll_supplied s.statements 0 h).targets k
  rwa [List.append_nil] at htargets

/-- A flattened script reads each of its temporaries once, and no other one. -/
theorem count_reads_flatten {s : Script π} (h : Stmt.AllVisible s.statements) (k : Nat) :
    s.flatten.reads.count (temporary k) = within 0 (s.flattenFrom 0).2 k := by
  have hreads := (Stmt.flattenAll_supplied s.statements 0 h).reads k
  rwa [List.append_nil, List.append_nil] at hreads

/-- A temporary that is set is read later in the same list. -/
theorem exists_readLater_flatten {s : Script π} (h : Stmt.AllVisible s.statements) {k : Nat}
    (hk : temporary k ∈ s.flatten.targets) :
    ∃ list ∈ s.flatten.lists, ReadLater (temporary k) list [] := by
  have hsupplied := Stmt.flattenAll_supplied s.statements 0 h
  rcases List.mem_flatMap.mp hk with ⟨a, ha, hk⟩
  rcases List.mem_flatten.mp ha with ⟨list, hlist, ha⟩
  have hset : temporary k ∈ list.flatMap Stmt.targets := List.mem_flatMap.mpr ⟨a, ha, hk⟩
  refine ⟨list, hlist, ?_⟩
  rcases List.mem_cons.mp hlist with rfl | hinner
  · exact hsupplied.later k hset
  · exact hsupplied.inside list (List.mem_append_left [] hinner) k hset

/-- Every temporary of a flattened script is used once. -/
theorem flatten_usesOnce {s : Script π} (h : Stmt.AllVisible s.statements) {name : String}
    (hname : name ∈ s.flatten.targets ++ s.flatten.reads) (htemporary : isTemporary name = true) :
    s.flatten.UsesOnce name := by
  rcases isTemporary_iff.mp htemporary with ⟨k, rfl⟩
  have htargets := count_targets_flatten h k
  have hreads := count_reads_flatten h k
  have hone : within 0 (s.flattenFrom 0).2 k = 1 := by
    have hcount : 1 ≤ (s.flatten.targets ++ s.flatten.reads).count (temporary k) :=
      List.one_le_count_iff.mpr hname
    rw [List.count_append, htargets, hreads] at hcount
    unfold within at hcount ⊢
    split at hcount <;> simp_all
  rw [hone] at htargets hreads
  have hset : temporary k ∈ s.flatten.targets := List.one_le_count_iff.mp (by omega)
  rcases exists_readLater_flatten h hset with ⟨list, hlist, before, a, after, heq, hk, hread⟩
  refine ⟨htargets, hreads, list, hlist, before, a, after, heq, hk, ?_⟩
  simpa using hread

/-- In a flattened script each temporary is set once and read once, later in the same list of
statements.  No two assignments set the same temporary, and no name of the script is that of a
temporary in upper case. -/
theorem flatten_uses_temporaries_once {source : Source} {script : Script Span}
    (hparse : parse source = .ok script) :
    (∀ name ∈ script.flatten.targets ++ script.flatten.reads, isTemporary name = true →
      script.flatten.UsesOnce name) ∧
    (script.flatten.targets.filter isTemporary).Nodup ∧
    ∀ number, ∀ name ∈ script.targets ++ script.reads,
      Text.upper (temporary number) ≠ Text.upper name := by
  have hnames : script.NamesIn Text.BeginsWithLetter := by
    have hread := namesIn_read source
    rwa [parse_eq_ok_iff.mp hparse] at hread
  have hvisible : Stmt.AllVisible script.statements :=
    hnames.imp fun _ => isTemporary_of_beginsWithLetter
  refine ⟨fun name hname => flatten_usesOnce hvisible hname, ?_, ?_⟩
  · rw [List.nodup_iff_count_le_one]
    intro name
    by_cases htemporary : isTemporary name = true
    · rcases isTemporary_iff.mp htemporary with ⟨k, rfl⟩
      rw [List.count_filter htemporary, count_targets_flatten hvisible, within]
      split <;> omega
    · rw [List.count_eq_zero.mpr fun hmem => htemporary (List.mem_filter.mp hmem).2]
      omega
  · intro number name hname
    exact upper_temporary_ne (hnames.forall_mem name hname) number

/-- A script with temporaries before a conditional, for both of its conditions, and inside its
block. -/
def branchSample : Source :=
  Utf8.encode ("if len(f(x)) > 1 \x7b\nlet y = len(g(x))\n" ++
    "\x7d else if len(h(x)) > y \x7b\n\x7d\n")

/-- The temporaries of the sample, in the order in which they are set and read. -/
theorem flatten_uses_temporaries_once_branchSample :
    parse branchSample = .ok (read branchSample).1 ∧
      (read branchSample).1.flatten.targets = ["_TMP1", "_TMP3", "_TMP2", "y"] ∧
      (read branchSample).1.flatten.reads = ["x", "x", "_TMP1", "_TMP3", "y", "x", "_TMP2"] ∧
      (read branchSample).1.flatten.UsesOnce "_TMP2" ∧
      ∀ number, ∀ name ∈ (read branchSample).1.targets ++ (read branchSample).1.reads,
        Text.upper (temporary number) ≠ Text.upper name := by
  have hparse : parse branchSample = .ok (read branchSample).1 :=
    parse_eq_ok_iff.mpr (Prod.ext rfl (by decide +kernel))
  have honce := flatten_uses_temporaries_once hparse
  exact ⟨hparse, by decide +kernel, by decide +kernel,
    honce.1 "_TMP2" (by decide +kernel) (by decide +kernel), honce.2.2⟩

end Script
end Shellward
