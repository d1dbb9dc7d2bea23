import Netblock.Forest.Basic

/-! # One level of siblings

The slots of a level are kept in the order of the last addresses of their labels, and a slot
is told by that address alone. Where siblings are disjoint, the first sibling that ends at
or after the start of an interval is the only one that can contain it.
-/

namespace Netblock.Forest

variable {f : Family} {V : Type}

/-- The node in the first slot that ends at `x` or after it. -/
def ceiling? (x : Nat) (level : Forest f V) : Option (Node f V) :=
  (level.find? fun s => decide (x ≤ s.label.last)).map Slot.node

theorem mem_of_ceiling? {x : Nat} {level : Forest f V} {n : Node f V}
    (h : ceiling? x level = some n) : n ∈ nodes level := by
  obtain ⟨s, hs, rfl⟩ := Option.map_eq_some_iff.1 h
  exact List.mem_map_of_mem (List.mem_of_find?_eq_some hs)

/-- The sibling that contains `k`, looked for in one place. -/
def enclosing? (k : Interval f) (level : Forest f V) : Option (Node f V) :=
  (ceiling? k.first level).filter fun n => decide (n.key.Contains k)

theorem mem_of_enclosing? {k : Interval f} {level : Forest f V} {n : Node f V}
    (h : enclosing? k level = some n) : n ∈ nodes level :=
  mem_of_ceiling? (Option.filter_eq_some_iff.1 h).1

theorem contains_of_enclosing? {k : Interval f} {level : Forest f V} {n : Node f V}
    (h : enclosing? k level = some n) : n.key.Contains k := by
  simpa using (Option.filter_eq_some_iff.1 h).2

/-- The siblings that partly overlap `k`, looked for at its two ends. -/
def conflicts (k : Interval f) (level : Forest f V) : List (Interval f) :=
  ([ceiling? k.first level, ceiling? k.last level].filterMap id
    |>.map Node.key |>.filter (fun i => decide (k.PartlyOverlaps i))).eraseDups

/-- The run of slots labelled inside `k`, from the first that ends at or after its start. -/
def contained (k : Interval f) (level : Forest f V) : Forest f V :=
  (level.dropWhile fun s => decide (s.label.last < k.first)).takeWhile
    fun s => decide (k.Contains s.label)

def occupant? (k : Interval f) (level : Forest f V) : Option (Node f V) :=
  (level.find? fun s => decide (s.label.last = k.last)).map Slot.node

theorem mem_of_occupant? {k : Interval f} {level : Forest f V} {n : Node f V}
    (h : occupant? k level = some n) : n ∈ nodes level := by
  obtain ⟨s, hs, rfl⟩ := Option.map_eq_some_iff.1 h
  exact List.mem_map_of_mem (List.mem_of_find?_eq_some hs)

/-- Puts another node into the first slot that ends at `x` or after it. -/
def replace (x : Nat) (n : Node f V) : Forest f V → Forest f V
  | [] => []
  | s :: rest => if x ≤ s.label.last then ⟨s.label, n⟩ :: rest else s :: replace x n rest

/-- Puts a node into its slot, and answers the node that was there. -/
def place (n : Node f V) : Forest f V → Option (Node f V) × Forest f V
  | [] => (none, [⟨n.key, n⟩])
  | s :: rest =>
    if n.key.last < s.label.last then (none, ⟨n.key, n⟩ :: s :: rest)
    else if n.key.last = s.label.last then (some s.node, ⟨s.label, n⟩ :: rest)
    else
      let (displaced, placed) := place n rest
      (displaced, s :: placed)

def placeAll (nodes : List (Node f V)) (level : Forest f V) : Forest f V :=
  nodes.foldl (fun level n => (place n level).2) level

def extract? (k : Interval f) : Forest f V → Option (Node f V × Forest f V)
  | [] => none
  | s :: rest =>
    if s.label.last = k.last then some (s.node, rest)
    else (extract? k rest).map fun p => (p.1, s :: p.2)

end Netblock.Forest
