import Netblock.Forest.Edit
import Netblock.Forest.Level

/-! # Removing from a forest

The children of a removed node take its place among its siblings. A node that has lost its
last child becomes a leaf.
-/

namespace Netblock

variable {f : Family} {V : Type}

namespace Forest

/-- Takes the node in the slot of `k` out of its level and puts its children there. -/
def promote (k : Interval f) (level : Forest f V) : Removal (Interval f) V (Forest f V) :=
  match extract? k level with
  | none => ⟨none, level, []⟩
  | some (removed, remaining) =>
    match removed with
    | .leaf _ v => ⟨some v, remaining, []⟩
    | .branch _ v cs => ⟨some v, placeAll (nodes cs) remaining, [.promoting k cs.length]⟩

def remove (k : Interval f) (level : Forest f V) : Removal (Interval f) V (Forest f V) :=
  match enclosing? k level with
  | none => ⟨none, level, []⟩
  | some n =>
    if n.key = k then promote k level
    else match _h : occupant? n.key level with
      | none => ⟨none, level, []⟩
      | some m =>
        (remove k m.forest).map fun cs => replace n.key.last (m.withRemaining cs) level
termination_by count level
decreasing_by exact count_forest_lt (mem_of_occupant? _h)

theorem remove_of_none {k : Interval f} {level : Forest f V} (h : enclosing? k level = none) :
    remove k level = ⟨none, level, []⟩ := by
  rw [remove, h]

theorem remove_of_key {k : Interval f} {level : Forest f V} {n : Node f V}
    (h : enclosing? k level = some n) (hk : n.key = k) : remove k level = promote k level := by
  rw [remove, h]
  exact if_pos hk

theorem remove_of_occupant {k : Interval f} {level : Forest f V} {n m : Node f V}
    (h : enclosing? k level = some n) (hk : n.key ≠ k) (hm : occupant? n.key level = some m) :
    remove k level =
      (remove k m.forest).map fun cs => replace n.key.last (m.withRemaining cs) level := by
  rw [remove, h]
  simp only [if_neg hk]
  split <;> simp_all

end Forest

namespace Node

def removeBelow (k : Interval f) (n : Node f V) : Removal (Interval f) V (Node f V) :=
  (Forest.remove k n.forest).map n.withRemaining

def remove (k : Interval f) (n : Node f V) : Edit (Interval f) V (Node f V) :=
  if n.key.Contains k then (n.removeBelow k).toEdit
  else ⟨.error (.outside n.key k), n, []⟩

end Node

end Netblock
