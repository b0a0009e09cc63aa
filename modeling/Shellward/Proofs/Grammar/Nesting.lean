import Shellward.Proofs.Grammar.Growth
import Shellward.Proofs.Script.Formatting

/-!
# How deep trees go

The room for nesting bounds how many expressions and blocks stand inside one another.  A path
from the root of a tree to one of its leaves passes through expressions and blocks; the bound
counts those on each path, apart from the operations that the path leaves through their left
operand.  Of these a path can pass any number, since an operator is read after its left
operand and in the same room.

Main results:

- Theorem `Script.within_iff_paths`: the nesting of a tree stays within a limit exactly if that
  count does on every path.
- Theorem `Script.read_crosses_at_most_256`: the count is at most 256 on every path of a tree
  that is read, and a tree that the grammar derives is read if it is.
- Theorem `Script.paths_unbounded`: the paths themselves can be of any length.
-/

namespace Shellward

variable {π κ : Type}

/-! ### Paths -/

/-- An expression or a block on a path from the root of a tree to a leaf; an operation is left
through one of its operands. -/
inductive PathNode where
  | operand
  | call
  | negation
  | group
  | leftOperand
  | rightOperand
  | block
deriving DecidableEq, Repr

namespace PathNode

/-- The paths that begin with a node and go on below it, if anything is there. -/
def above (node : PathNode) (paths : List (List PathNode)) : List (List PathNode) :=
  if paths.isEmpty then [[node]] else paths.map (node :: ·)

/-- How many nodes a path passes, not counting the operations that it leaves through their left
operand. -/
def crossed (path : List PathNode) : Nat :=
  path.countP (· != .leftOperand)

@[simp]
theorem crossed_nil : crossed [] = 0 :=
  rfl

/-- An operation that is left through its left operand does not count. -/
theorem crossed_leftOperand_cons (path : List PathNode) :
    crossed (.leftOperand :: path) = crossed path := by
  simp [crossed]

/-- Every node counts but an operation that is left through its left operand. -/
theorem crossed_cons {node : PathNode} (hnode : node ≠ .leftOperand) (path : List PathNode) :
    crossed (node :: path) = crossed path + 1 := by
  simp [crossed, hnode]

/-- There is a path from every node, if only that to the node itself. -/
theorem above_ne_nil (node : PathNode) (paths : List (List PathNode)) :
    node.above paths ≠ [] := by
  cases paths <;> simp [above]

variable {node : PathNode} {paths : List (List PathNode)} {blocks limit : Nat}

/-- Below a node that counts, one less may be crossed. -/
theorem forall_above_iff (hnode : node ≠ .leftOperand) :
    (∀ path ∈ node.above paths, blocks + crossed path ≤ limit) ↔
      blocks + 1 ≤ limit ∧ ∀ path ∈ paths, blocks + 1 + crossed path ≤ limit := by
  cases paths with
  | nil => simp [above, crossed_cons hnode]
  | cons path paths =>
      have hmap : (∀ p ∈ (path :: paths).map (node :: ·), blocks + crossed p ≤ limit) ↔
          ∀ p ∈ path :: paths, blocks + 1 + crossed p ≤ limit := by
        rw [List.forall_mem_map]
        simp only [crossed_cons hnode]
        grind
      rw [above, if_neg (by simp), hmap]
      refine ⟨fun h => ⟨?_, h⟩, And.right⟩
      have hfirst := h path List.mem_cons_self
      omega

/-- Below an operation that is left through its left operand, as many may be crossed. -/
theorem forall_above_leftOperand_iff (hpaths : paths ≠ []) :
    (∀ path ∈ leftOperand.above paths, blocks + crossed path ≤ limit) ↔
      ∀ path ∈ paths, blocks + crossed path ≤ limit := by
  cases paths with
  | nil => exact absurd rfl hpaths
  | cons path paths => simp [above, crossed_leftOperand_cons]

end PathNode

mutual

/-- The paths from an expression to its leaves. -/
def Expr.paths : Expr π → List (List PathNode)
  | .literal .. | .name .. => [[.operand]]
  | .call _ _ _ arguments _ => PathNode.call.above (Expr.allPaths arguments)
  | .binary _ left right _ =>
      PathNode.leftOperand.above left.paths ++ PathNode.rightOperand.above right.paths
  | .negate inner _ => PathNode.negation.above inner.paths
  | .group inner _ => PathNode.group.above inner.paths

/-- The paths from several expressions to their leaves. -/
def Expr.allPaths : List (Expr π) → List (List PathNode)
  | [] => []
  | e :: es => e.paths ++ Expr.allPaths es

end

mutual

/-- The paths from a statement to its leaves. -/
def Stmt.paths : Stmt π → List (List PathNode)
  | .comment .. | .blank _ => [[]]
  | .assign _ _ value _ | .run value _ => value.paths
  | .cond test body _ alternative _ =>
      test.paths ++ PathNode.block.above (Stmt.allPaths body) ++ alternative.paths

/-- The paths from several statements to their leaves. -/
def Stmt.allPaths : List (Stmt π) → List (List PathNode)
  | [] => []
  | s :: ss => s.paths ++ Stmt.allPaths ss

/-- The paths through what follows the body of a conditional. -/
def Else.paths : Else π → List (List PathNode)
  | .absent => []
  | .block body _ => PathNode.block.above (Stmt.allPaths body)
  | .elseIf test body _ rest =>
      test.paths ++ PathNode.block.above (Stmt.allPaths body) ++ rest.paths

end

/-- The paths from the root of a script to its leaves. -/
def Script.paths (s : Script π) : List (List PathNode) :=
  Stmt.allPaths s.statements

/-! ### Paths and nesting -/

/-- There is a path from every expression. -/
theorem Expr.paths_ne_nil (e : Expr π) : e.paths ≠ [] := by
  cases e <;> simp [Expr.paths, PathNode.above_ne_nil]

section Need

open PathNode

mutual

/-- The room that an expression needs is what its paths cross. -/
theorem Expr.need_le_iff (blocks limit : Nat) : ∀ e : Expr π,
    blocks + e.need ≤ limit ↔ ∀ path ∈ e.paths, blocks + crossed path ≤ limit
  | .literal .. | .name .. => by simp [Expr.need, Expr.paths, crossed]
  | .call _ _ _ arguments _ => by
      rw [Expr.need, Expr.paths, forall_above_iff (by simp),
        ← Expr.needAll_le_iff (blocks + 1) limit arguments]
      omega
  | .binary _ left right _ => by
      have hleft := Expr.need_le_iff blocks limit left
      have hright := Expr.need_le_iff (blocks + 1) limit right
      have hone := one_le_need right
      rw [Expr.need, Expr.paths, List.forall_mem_append,
        forall_above_leftOperand_iff left.paths_ne_nil, ← hleft,
        forall_above_iff (by simp), ← hright]
      omega
  | .negate inner _ | .group inner _ => by
      have hinner := Expr.need_le_iff (blocks + 1) limit inner
      have hone := one_le_need inner
      rw [Expr.need, Expr.paths, forall_above_iff (by simp), ← hinner]
      omega

/-- The room that several expressions need is what their paths cross. -/
theorem Expr.needAll_le_iff (blocks limit : Nat) : ∀ es : List (Expr π),
    blocks + Expr.needAll es ≤ limit ↔
      blocks ≤ limit ∧ ∀ path ∈ Expr.allPaths es, blocks + crossed path ≤ limit
  | [] => by simp [Expr.needAll, Expr.allPaths]
  | e :: es => by
      have he := Expr.need_le_iff blocks limit e
      have hes := Expr.needAll_le_iff blocks limit es
      have hmax : blocks + max e.need (Expr.needAll es) ≤ limit ↔
          blocks + e.need ≤ limit ∧ blocks + Expr.needAll es ≤ limit := by omega
      rw [Expr.needAll, Expr.allPaths, List.forall_mem_append, hmax, he, hes]
      exact and_left_comm

end

mutual

/-- A statement stays within a limit if its paths do. -/
theorem Stmt.within_iff_paths {limit : Nat} : ∀ {blocks : Nat} (s : Stmt π),
    s.Within limit blocks ↔ ∀ path ∈ s.paths, blocks + crossed path ≤ limit
  | _, .comment .. | _, .blank _ => by simp [Stmt.Within, Stmt.paths, crossed]
  | _, .assign _ _ value _ | _, .run value _ => by
      rw [Stmt.Within, Stmt.paths, Expr.need_le_iff]
  | blocks, .cond test body _ alternative _ => by
      rw [Stmt.Within, Stmt.paths, List.forall_mem_append, List.forall_mem_append,
        forall_above_iff (by simp), Expr.need_le_iff, Stmt.allWithin_iff_paths body,
        Else.within_iff_paths alternative]
      grind

/-- Several statements keep to a limit exactly if their paths do. -/
theorem Stmt.allWithin_iff_paths {limit : Nat} : ∀ {blocks : Nat} (ss : List (Stmt π)),
    Stmt.AllWithin limit blocks ss ↔
      ∀ path ∈ Stmt.allPaths ss, blocks + crossed path ≤ limit
  | _, [] => by simp [Stmt.AllWithin, Stmt.allPaths]
  | _, s :: ss => by
      rw [Stmt.AllWithin, Stmt.allPaths, List.forall_mem_append, Stmt.within_iff_paths s,
        Stmt.allWithin_iff_paths ss]

/-- What follows the body of a conditional keeps to a limit exactly if its paths do. -/
theorem Else.within_iff_paths {limit : Nat} : ∀ {blocks : Nat} (a : Else π),
    a.Within limit blocks ↔ ∀ path ∈ a.paths, blocks + crossed path ≤ limit
  | _, .absent => by simp [Else.Within, Else.paths]
  | _, .block body _ => by
      rw [Else.Within, Else.paths, forall_above_iff (by simp), Stmt.allWithin_iff_paths body]
  | _, .elseIf test body _ rest => by
      rw [Else.Within, Else.paths, List.forall_mem_append, List.forall_mem_append,
        forall_above_iff (by simp), Expr.need_le_iff, Stmt.allWithin_iff_paths body,
        Else.within_iff_paths rest]
      grind

end

/-- The nesting of a script stays within a limit exactly if its paths cross no more nodes. -/
theorem Script.within_iff_paths {limit : Nat} (s : Script π) :
    s.Within limit ↔ ∀ path ∈ s.paths, crossed path ≤ limit := by
  have h := @Stmt.allWithin_iff_paths π limit 0 s.statements
  simp only [Nat.zero_add] at h
  exact h

end Need

/-! ### Paths and places -/

section Map

variable (f : π → κ)

mutual

/-- The paths of an expression do not depend on its places. -/
theorem Expr.paths_map : ∀ e : Expr π, (e.map f).paths = e.paths
  | .literal .. | .name .. => by simp [Expr.map, Expr.paths]
  | .call _ _ _ arguments _ => by simp [Expr.map, Expr.paths, Expr.allPaths_mapAll arguments]
  | .binary _ left right _ => by
      simp [Expr.map, Expr.paths, Expr.paths_map left, Expr.paths_map right]
  | .negate inner _ | .group inner _ => by simp [Expr.map, Expr.paths, Expr.paths_map inner]

theorem Expr.allPaths_mapAll : ∀ es : List (Expr π),
    Expr.allPaths (Expr.mapAll f es) = Expr.allPaths es
  | [] => by simp [Expr.mapAll, Expr.allPaths]
  | e :: es => by
      simp [Expr.mapAll, Expr.allPaths, Expr.paths_map e, Expr.allPaths_mapAll es]

end

mutual

/-- The paths of a statement do not depend on its places. -/
theorem Stmt.paths_map : ∀ s : Stmt π, (s.map f).paths = s.paths
  | .comment .. | .blank _ => by simp [Stmt.map, Stmt.paths]
  | .assign .. | .run .. => by simp [Stmt.map, Stmt.paths, Expr.paths_map]
  | .cond _ body _ alternative _ => by
      simp [Stmt.map, Stmt.paths, Expr.paths_map, Stmt.allPaths_mapAll body,
        Else.paths_map alternative]

/-- The paths of several statements do not depend on their places. -/
theorem Stmt.allPaths_mapAll : ∀ ss : List (Stmt π),
    Stmt.allPaths (Stmt.mapAll f ss) = Stmt.allPaths ss
  | [] => by simp [Stmt.mapAll, Stmt.allPaths]
  | s :: ss => by
      simp [Stmt.mapAll, Stmt.allPaths, Stmt.paths_map s, Stmt.allPaths_mapAll ss]

theorem Else.paths_map : ∀ a : Else π, (a.map f).paths = a.paths
  | .absent => by simp [Else.map, Else.paths]
  | .block body _ => by simp [Else.map, Else.paths, Stmt.allPaths_mapAll body]
  | .elseIf _ body _ rest => by
      simp [Else.map, Else.paths, Expr.paths_map, Stmt.allPaths_mapAll body,
        Else.paths_map rest]

end

end Map

/-! ### What is read stays within the limit -/

theorem Expr.allPaths_eq (es : List (Expr π)) : allPaths es = es.flatMap paths := by
  induction es with
  | nil => rfl
  | cons e es ih => simp [allPaths, ih]

theorem Stmt.allPaths_eq (ss : List (Stmt π)) : allPaths ss = ss.flatMap paths := by
  induction ss with
  | nil => rfl
  | cons s ss ih => simp [allPaths, ih]

/-- Some paths cross no more nodes than there is room. -/
def PathNode.FitRoom (room : Nat) (paths : List (List PathNode)) : Prop :=
  ∀ path ∈ paths, crossed path ≤ room

namespace PathNode

variable {room : Nat} {paths : List (List PathNode)}

/-- A path that begins with a node goes on with a path below it, or ends. -/
theorem mem_above {node : PathNode} {path : List PathNode} (h : path ∈ node.above paths) :
    ∃ below, path = node :: below ∧ (below = [] ∨ below ∈ paths) := by
  unfold PathNode.above at h
  split at h
  · exact ⟨[], List.mem_singleton.mp h, .inl rfl⟩
  · rcases List.mem_map.mp h with ⟨below, hbelow, rfl⟩
    exact ⟨below, rfl, .inr hbelow⟩

/-- A node above paths that fit takes up one room. -/
theorem FitRoom.above (node : PathNode) (h : FitRoom room paths) :
    FitRoom (room + 1) (node.above paths) := by
  intro path hpath
  rcases mem_above hpath with ⟨below, rfl, hbelow⟩
  have hnode : crossed (node :: below) ≤ crossed below + 1 := by
    by_cases hleft : node = .leftOperand
    · rw [hleft, crossed_leftOperand_cons]
      omega
    · exact Nat.le_of_eq (crossed_cons hleft below)
  rcases hbelow with rfl | hbelow
  · exact Nat.le_trans hnode (by simp)
  · exact Nat.le_trans hnode (Nat.succ_le_succ (h below hbelow))

/-- An operation takes up no room for its left operand. -/
theorem FitRoom.above_leftOperand (h : FitRoom room paths) :
    FitRoom room (leftOperand.above paths) := by
  intro path hpath
  rcases mem_above hpath with ⟨below, rfl, hbelow⟩
  rw [crossed_leftOperand_cons]
  rcases hbelow with rfl | hbelow
  · exact Nat.zero_le _
  · exact h below hbelow

/-- Paths that fit one by one fit together. -/
theorem FitRoom.flatMap {α : Type} {f : α → List (List PathNode)} {as : List α}
    (h : ∀ a ∈ as, FitRoom room (f a)) : FitRoom room (as.flatMap f) := by
  intro path hpath
  rcases List.mem_flatMap.mp hpath with ⟨a, ha, hpath⟩
  exact h a ha path hpath

/-- Paths that fit and other paths that fit do so together. -/
theorem FitRoom.append {paths' : List (List PathNode)} (h : FitRoom room paths)
    (h' : FitRoom room paths') : FitRoom room (paths ++ paths') :=
  List.forall_mem_append.mpr ⟨h, h'⟩

end PathNode

open PathNode in
/-- The paths of an expression fit the room of its reader. -/
theorem Expr.paths_grown : Grown (fun _ => True) (fun room e => FitRoom room e.paths) where
  token := by
    intro room t e _ h
    unfold ofToken? at h
    split at h
    case h_6 => simp at h
    all_goals
      rw [← Option.some.inj h]
      simp [FitRoom, paths, crossed]
  negate h := h.above _
  group h := h.above _
  call := by
    intro room text cp p arguments _ harguments
    rw [paths, allPaths_eq]
    exact (FitRoom.flatMap harguments).above _
  binary hleft hright := hleft.above_leftOperand.append (hright.above _)

open PathNode in
/-- The paths of a statement fit the room of its reader. -/
theorem Stmt.paths_grown : Grown (fun _ => True) (fun room e => FitRoom room e.paths)
    (fun room s => FitRoom room s.paths) (fun room a => FitRoom room a.paths) where
  expression := Expr.paths_grown
  comment := by simp [FitRoom, paths]
  blank := by simp [FitRoom, paths]
  assign _ _ hvalue := hvalue
  run hvalue := hvalue
  cond := by
    intro room test body bp p alternative htest hbody halternative
    rw [paths, allPaths_eq]
    exact (htest.append ((FitRoom.flatMap hbody).above _)).append halternative
  absent := by simp [FitRoom, Else.paths]
  block := by
    intro room body bp hbody
    rw [Else.paths, allPaths_eq]
    exact (FitRoom.flatMap hbody).above _
  elseIf := by
    intro room test body bp rest htest hbody hrest
    rw [Else.paths, allPaths_eq]
    exact (htest.append ((FitRoom.flatMap hbody).above _)).append hrest

namespace Script

open PathNode

/-- The paths of every tree that is read fit the limit of nesting. -/
theorem read_fits (source : Source) : FitRoom maxNesting (read source).1.paths := by
  have hstatements : ∀ s ∈ (read source).1.statements, FitRoom maxNesting s.paths :=
    Stmt.paths_grown.read (fun _ => trivial) fun _ _ => trivial
  rw [paths, Stmt.allPaths_eq]
  exact FitRoom.flatMap hstatements

/-- On every path of a tree that is read, whatever mistakes the script has, at most 256
expressions and blocks are passed, not counting operations that are left through their left
operand.  The limit is exact: a tree that the grammar derives is read if all its paths keep to
it. -/
theorem read_crosses_at_most_256 (source : Source) :
    (∀ path ∈ (read source).1.paths, crossed path ≤ 256) ∧
      ∀ s, Derives (Token.ofSource source) s →
        (read source = (s, []) ↔ ∀ path ∈ s.paths, crossed path ≤ 256) := by
  refine ⟨read_fits source, fun s hderives => ?_⟩
  rw [read_eq_iff, within_iff_paths]
  exact and_iff_right hderives

def pathSample : Source :=
  Utf8.encode "if a \x7b\nlet x = (f(1 + 2 * -y))\n\x7d\n"

/-- A path that goes through nodes of every kind. -/
theorem read_crosses_at_most_256_pathSample :
    Derives (Token.ofSource pathSample) (read pathSample).1 ∧
      [.block, .group, .call, .rightOperand, .rightOperand, .negation, .operand] ∈
        (read pathSample).1.paths ∧
      (∀ path ∈ (read pathSample).1.paths, crossed path ≤ 256) ∧
      read pathSample = ((read pathSample).1, []) := by
  have hread : read pathSample = ((read pathSample).1, []) := Prod.ext rfl (by decide +kernel)
  have hderives := (derives_of_read hread).1
  rcases read_crosses_at_most_256 pathSample with ⟨hpaths, hexact⟩
  exact ⟨hderives, by decide +kernel, hpaths, (hexact _ hderives).mpr hpaths⟩

end Script

/-! ### Sums of any length -/

namespace Expr

/-- The tokens of a sum of ones. -/
def sumTokens : Nat → List Token
  | 0 => [⟨.number, default, [0x31]⟩]
  | n + 1 => sumTokens n ++ [⟨.plus, default, [0x2b]⟩, ⟨.number, default, [0x31]⟩]

/-- The tree of a sum of ones. -/
def sum : Nat → Expr Span
  | 0 => .literal .number (Utf8.decode [0x31]) default
  | n + 1 => .binary .add (sum n) (.literal .number (Utf8.decode [0x31]) default)
      ((sum n).place.merge default)

/-- A sum is derived from its tokens. -/
theorem derives_sum (n : Nat) (rest : List Token) :
    Derives .additive (sumTokens n ++ rest) (sum n) rest := by
  have hone : ∀ level rest, Derives level (⟨.number, default, [0x31]⟩ :: rest)
      (.literal .number (Utf8.decode [0x31]) default) rest := by
    intro level rest
    exact (Derives.literal .number rfl).loosen level.rank_le_call
  induction n generalizing rest with
  | zero => exact hone .additive rest
  | succ n ih =>
      rw [sumTokens, List.append_assoc]
      exact .binary .add (ih _) rfl (hone _ rest)

/-- The tokens of a sum can be written. -/
theorem printable_sumTokens (n : Nat) : ∀ t ∈ sumTokens n, t.Printable := by
  have hone : Token.Printable ⟨.number, default, [0x31]⟩ :=
    fun _ => ⟨.number (by decide) (by simp), by simp⟩
  have hplus : Token.Printable ⟨.plus, default, [0x2b]⟩ :=
    fun _ => ⟨.symbol (by decide), by simp⟩
  induction n with
  | zero => simpa [sumTokens] using hone
  | succ n ih => exact List.forall_mem_append.mpr ⟨ih, by simp [hone, hplus]⟩

/-- A sum needs no more room the longer it is. -/
theorem need_sum_le (n : Nat) : (sum n).need ≤ 2 := by
  induction n with
  | zero => simp [sum, need]
  | succ n ih => simp only [sum, need]; omega

/-- Yet a path goes down through all its operations. -/
theorem exists_path_sum (n : Nat) : ∃ path ∈ (sum n).paths, path.length = n + 1 := by
  induction n with
  | zero => exact ⟨[.operand], by simp [sum, paths], rfl⟩
  | succ n ih =>
      rcases ih with ⟨path, hpath, hlength⟩
      refine ⟨.leftOperand :: path, ?_, by simp [hlength]⟩
      rw [sum, paths, PathNode.above, if_neg (by simp [(sum n).paths_ne_nil])]
      exact List.mem_append_left _ (List.mem_map_of_mem hpath)

end Expr

namespace Script

/-- A sum of any length is read. -/
theorem exists_parse_sum (n : Nat) :
    ∃ source script, parse source = .ok script ∧ script.paths = (Expr.sum n).paths := by
  have hderives : Derives (Expr.sumTokens n ++ [⟨.eof, default, []⟩])
      ⟨[.run (Expr.sum n) (Expr.sum n).place]⟩ := by
    have hsum := (Expr.derives_sum n [⟨.eof, default, []⟩]).loosen (l := .equality) (by decide)
    exact ⟨⟨.eof, default, []⟩, rfl, .cons (.run hsum (.last rfl)) .nil⟩
  have hprintable : ∀ t ∈ Expr.sumTokens n ++ [⟨.eof, default, []⟩], t.Printable :=
    List.forall_mem_append.mpr ⟨Expr.printable_sumTokens n, by simp [Token.Printable]⟩
  rcases hderives.reprints hprintable with ⟨script, hscript, herase⟩
  have hwithin : script.Within maxNesting := by
    rw [within_iff_of_erase_eq herase]
    have hneed := Expr.need_sum_le n
    simp only [Within, Stmt.AllWithin, Stmt.Within, maxNesting, and_true]
    omega
  have hpaths : script.paths = (Expr.sum n).paths := by
    calc script.paths = script.erase.paths := (Stmt.allPaths_mapAll _ _).symm
      _ = (Script.erase ⟨[.run (Expr.sum n) (Expr.sum n).place]⟩).paths := by
        rw [herase]
        rfl
      _ = (Expr.sum n).paths := by
        rw [paths, erase, map, Stmt.allPaths_mapAll]
        simp [Stmt.allPaths, Stmt.paths]
  exact ⟨_, script, parse_eq_ok_iff.mpr (read_eq_iff.mpr ⟨hscript, hwithin⟩), hpaths⟩

/-- No bound holds for the paths of all trees that are read. -/
theorem paths_unbounded :
    ¬ ∃ bound, ∀ source script, parse source = .ok script →
      ∀ path ∈ script.paths, path.length ≤ bound := by
  rintro ⟨bound, hbound⟩
  rcases exists_parse_sum bound with ⟨source, script, hparse, hpaths⟩
  rcases Expr.exists_path_sum bound with ⟨path, hpath, hlength⟩
  have hle := hbound source script hparse path (hpaths ▸ hpath)
  omega

end Script
end Shellward
