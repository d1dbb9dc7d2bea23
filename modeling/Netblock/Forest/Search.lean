import Netblock.Forest.Level

/-! # Searching a forest

Down from the roots to the nodes that contain an interval, and across a level to those
inside it. Every search looks only at siblings that end at or after the start of the interval.
-/

namespace Netblock

variable {f : Family} {V : Type}

namespace Forest

def chain (k : Interval f) (level : Forest f V) : List (Node f V) :=
  match _h : enclosing? k level with
  | none => []
  | some n => n :: chain k n.forest
termination_by count level
decreasing_by exact count_forest_lt (mem_of_enclosing? _h)

theorem chain_of_none {k : Interval f} {level : Forest f V} (h : enclosing? k level = none) :
    chain k level = [] := by
  rw [chain]; split <;> simp_all

theorem chain_of_some {k : Interval f} {level : Forest f V} {n : Node f V}
    (h : enclosing? k level = some n) : chain k level = n :: chain k n.forest := by
  rw [chain]; split <;> simp_all

def nearest? (k : Interval f) (level : Forest f V) : Option (Node f V) :=
  match _h : enclosing? k level with
  | none => none
  | some n => some ((nearest? k n.forest).getD n)
termination_by count level
decreasing_by exact count_forest_lt (mem_of_enclosing? _h)

theorem nearest?_of_none {k : Interval f} {level : Forest f V} (h : enclosing? k level = none) :
    nearest? k level = none := by
  rw [nearest?]; split <;> simp_all

theorem nearest?_of_some {k : Interval f} {level : Forest f V} {n : Node f V}
    (h : enclosing? k level = some n) :
    nearest? k level = some ((nearest? k n.forest).getD n) := by
  rw [nearest?]; split <;> simp_all

/-- Whether `k` can be added at or below this level as a new key. -/
def accepts (k : Interval f) (level : Forest f V) : Bool :=
  match _h : enclosing? k level with
  | none => (conflicts k level).isEmpty
  | some n => if n.key = k then false else accepts k n.forest
termination_by count level
decreasing_by exact count_forest_lt (mem_of_enclosing? _h)

end Forest

mutual

def Node.insideBelow (k : Interval f) : Node f V → List (Node f V)
  | .leaf _ _ => []
  | .branch _ _ cs => Forest.inside k cs

def Forest.inside (k : Interval f) : Forest f V → List (Node f V)
  | [] => []
  | ⟨label, n⟩ :: rest =>
    if label.last < k.first then Forest.inside k rest
    else if k.Contains n.key then n.preorder ++ Forest.inside k rest
    else if k.Intersects n.key then n.insideBelow k ++ Forest.inside k rest
    else []

end

mutual

def Node.outermostBelow (k : Interval f) : Node f V → List (Node f V)
  | .leaf _ _ => []
  | .branch _ _ cs => Forest.outermost k cs

/-- The nodes inside `k` that are below no other node inside `k`. -/
def Forest.outermost (k : Interval f) : Forest f V → List (Node f V)
  | [] => []
  | ⟨label, n⟩ :: rest =>
    if label.last < k.first then Forest.outermost k rest
    else if k.Contains n.key then n :: Forest.outermost k rest
    else if k.Intersects n.key then n.outermostBelow k ++ Forest.outermost k rest
    else []

end

end Netblock
