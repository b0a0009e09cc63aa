import Shellward.Script.Basic

/-!
# Equality of scripts

Equality of trees is decidable when equality of their places is.

Main results:

- Theorems `Expr.same_iff`, `Stmt.same_iff` and `Else.same_iff`: the Boolean
  comparison of two trees holds exactly of equal trees.
-/

namespace Shellward

variable {π : Type} [DecidableEq π]

namespace Expr

mutual

/-- Compare two expressions. -/
def same : Expr π → Expr π → Bool
  | .literal k t p, .literal k' t' p' => k == k' && t == t' && decide (p = p')
  | .name t p, .name t' p' => t == t' && decide (p = p')
  | .call f c cp as p, .call f' c' cp' as' p' =>
      f == f' && c == c' && decide (cp = cp') && sameAll as as' && decide (p = p')
  | .binary o l r p, .binary o' l' r' p' => o == o' && l.same l' && r.same r' && decide (p = p')
  | .negate e p, .negate e' p' => e.same e' && decide (p = p')
  | .group e p, .group e' p' => e.same e' && decide (p = p')
  | _, _ => false

/-- Compare two lists of expressions. -/
def sameAll : List (Expr π) → List (Expr π) → Bool
  | [], [] => true
  | a :: as, b :: bs => a.same b && sameAll as bs
  | _, _ => false

end

mutual

/-- The comparison of expressions finds out whether they are equal. -/
theorem same_iff : ∀ a b : Expr π, a.same b = true ↔ a = b
  | .literal .., b => by cases b <;> simp [same, and_assoc]
  | .name .., b => by cases b <;> simp [same]
  | .call _ _ _ as _, b => by cases b <;> simp [same, and_assoc, sameAll_iff as]
  | .binary _ l r _, b => by cases b <;> simp [same, and_assoc, same_iff l, same_iff r]
  | .negate e _, b => by cases b <;> simp [same, same_iff e]
  | .group e _, b => by cases b <;> simp [same, same_iff e]

/-- The comparison of lists of expressions finds out whether they are equal. -/
theorem sameAll_iff : ∀ as bs : List (Expr π), sameAll as bs = true ↔ as = bs
  | [], bs => by cases bs <;> simp [sameAll]
  | a :: as, bs => by cases bs <;> simp [sameAll, same_iff a, sameAll_iff as]

end

instance : DecidableEq (Expr π) := fun a b =>
  decidable_of_iff (a.same b = true) (same_iff a b)

end Expr

mutual

/-- Compare two statements. -/
def Stmt.same : Stmt π → Stmt π → Bool
  | .comment t p, .comment t' p' => t == t' && decide (p = p')
  | .blank p, .blank p' => decide (p = p')
  | .assign t tp v p, .assign t' tp' v' p' =>
      t == t' && decide (tp = tp') && decide (v = v') && decide (p = p')
  | .run v p, .run v' p' => decide (v = v') && decide (p = p')
  | .cond t b bp a p, .cond t' b' bp' a' p' =>
      decide (t = t') && Stmt.sameAll b b' && decide (bp = bp') && a.same a' && decide (p = p')
  | _, _ => false

/-- Compare two lists of statements. -/
def Stmt.sameAll : List (Stmt π) → List (Stmt π) → Bool
  | [], [] => true
  | a :: as, b :: bs => a.same b && Stmt.sameAll as bs
  | _, _ => false

/-- Compare what follows two conditionals. -/
def Else.same : Else π → Else π → Bool
  | .absent, .absent => true
  | .block b bp, .block b' bp' => Stmt.sameAll b b' && decide (bp = bp')
  | .elseIf t b bp r, .elseIf t' b' bp' r' =>
      decide (t = t') && Stmt.sameAll b b' && decide (bp = bp') && r.same r'
  | _, _ => false

end

mutual

/-- The comparison of statements finds out whether they are equal. -/
theorem Stmt.same_iff : ∀ a b : Stmt π, a.same b = true ↔ a = b
  | .comment .., b => by cases b <;> simp [Stmt.same]
  | .blank _, b => by cases b <;> simp [Stmt.same]
  | .assign .., b => by cases b <;> simp [Stmt.same, and_assoc]
  | .run .., b => by cases b <;> simp [Stmt.same]
  | .cond _ body _ a _, b => by
      cases b <;> simp [Stmt.same, and_assoc, Stmt.sameAll_iff body, Else.same_iff a]

/-- The comparison of lists of statements finds out whether they are equal. -/
theorem Stmt.sameAll_iff : ∀ as bs : List (Stmt π), Stmt.sameAll as bs = true ↔ as = bs
  | [], bs => by cases bs <;> simp [Stmt.sameAll]
  | a :: as, bs => by cases bs <;> simp [Stmt.sameAll, Stmt.same_iff a, Stmt.sameAll_iff as]

/-- The comparison of what follows two conditionals finds out whether it is equal. -/
theorem Else.same_iff : ∀ a b : Else π, a.same b = true ↔ a = b
  | .absent, b => by cases b <;> simp [Else.same]
  | .block body _, b => by cases b <;> simp [Else.same, Stmt.sameAll_iff body]
  | .elseIf _ body _ r, b => by
      cases b <;> simp [Else.same, and_assoc, Stmt.sameAll_iff body, Else.same_iff r]

end

instance : DecidableEq (Stmt π) := fun a b =>
  decidable_of_iff (a.same b = true) (Stmt.same_iff a b)

instance : DecidableEq (Else π) := fun a b =>
  decidable_of_iff (a.same b = true) (Else.same_iff a b)

deriving instance DecidableEq for Script

end Shellward
