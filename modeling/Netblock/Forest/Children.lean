import Netblock.Forest.Add
import Netblock.Forest.Remove

/-! # The children of a node

A leaf has no level of children, and refuses edits of it. A node that lost its last child
in place keeps an empty level, which is told apart from none.
-/

namespace Netblock

variable {f : Family} {V : Type}

/-- The level of children of a node, or `none` for a leaf. -/
abbrev Children (f : Family) (V : Type) := Option (Forest f V)

namespace Children

def forest (c : Children f V) : Forest f V := c.getD []

def isEmpty (c : Children f V) : Bool := c.isNone

def add (c : Children f V) (n : Node f V) : Edit (Interval f) V (Children f V) :=
  match c with
  | none => ⟨.error (.noLevel .add), c, []⟩
  | some level => (level.add n).map some

def remove (c : Children f V) (k : Interval f) : Edit (Interval f) V (Children f V) :=
  match c with
  | none => ⟨.error (.noLevel .remove), c, []⟩
  | some level => ((Forest.remove k level).map some).toEdit

end Children

end Netblock
