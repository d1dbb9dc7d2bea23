import Netblock.Forest.Basic

/-! # Cursors

A cursor steps through a forest in preorder. It holds what is left of the levels between
the roots and the node last visited, the innermost level first.
-/

namespace Netblock

variable {f : Family} {V : Type}

structure Cursor (f : Family) (V : Type) where
  levels : List (Forest f V)

namespace Cursor

def ofForest (level : Forest f V) : Cursor f V := ⟨[level]⟩

def ofChildren (children : Option (Forest f V)) : Cursor f V := ⟨children.toList⟩

/-- The next node of the innermost level that has one left. The level below that node
becomes the innermost. -/
def advance : List (Forest f V) → Option (Node f V × List (Forest f V))
  | [] => none
  | [] :: outer => advance outer
  | (s :: rest) :: outer => some (s.node, s.node.children?.toList ++ rest :: outer)

def next? (c : Cursor f V) : Option (Node f V × Cursor f V) :=
  (advance c.levels).map fun p => (p.1, ⟨p.2⟩)

def remaining : List (Forest f V) → Nat
  | [] => 0
  | level :: outer => level.count + remaining outer

theorem remaining_children (n : Node f V) (levels : List (Forest f V)) :
    remaining (n.children?.toList ++ levels) + 1 = n.count + remaining levels := by
  cases n with
  | leaf => simp [Node.children?, Node.count, Nat.add_comm]
  | branch => simp [remaining, Node.children?, Node.count, Nat.add_right_comm]

theorem remaining_advance {levels outer : List (Forest f V)} {n : Node f V}
    (h : advance levels = some (n, outer)) : remaining outer < remaining levels := by
  induction levels with
  | nil => simp [advance] at h
  | cons level levels ih =>
    cases level with
    | nil =>
      have := ih h
      simpa [remaining] using this
    | cons s rest =>
      simp only [advance, Option.some.injEq, Prod.mk.injEq] at h
      obtain ⟨rfl, rfl⟩ := h
      have := remaining_children s.node (rest :: levels)
      simp only [remaining, Forest.count_cons] at this ⊢
      omega

def toList (c : Cursor f V) : List (Node f V) :=
  match _h : advance c.levels with
  | none => []
  | some (n, levels) => n :: toList ⟨levels⟩
termination_by remaining c.levels
decreasing_by exact remaining_advance _h

end Cursor

end Netblock
