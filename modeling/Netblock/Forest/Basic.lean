import Netblock.Interval

/-! # Forests of nested intervals

A level is a list of slots, each holding a node: an interval with a value and, unless the
node is a leaf, a level below it. A level with all that is below it is a forest. `preorder`
walks a forest with every node before those below it.
-/

namespace Netblock

/-- A place in a level. It is labelled with the key of the node that it was made for, and
keeps that label when another node is put into it. -/
structure Slot (f : Family) (N : Type) where
  label : Interval f
  node : N

/-- A branch whose list is empty has had all its children taken out in place. It differs
from a leaf. -/
inductive Node (f : Family) (V : Type) where
  | leaf (key : Interval f) (value : V)
  | branch (key : Interval f) (value : V) (children : List (Slot f (Node f V)))

abbrev Forest (f : Family) (V : Type) := List (Slot f (Node f V))

variable {f : Family} {V : Type}

namespace Node

def key : Node f V → Interval f
  | leaf k _ => k
  | branch k _ _ => k

def value : Node f V → V
  | leaf _ v => v
  | branch _ v _ => v

def children? : Node f V → Option (Forest f V)
  | leaf _ _ => none
  | branch _ _ cs => some cs

def forest : Node f V → Forest f V
  | leaf _ _ => []
  | branch _ _ cs => cs

def withValue (v : V) : Node f V → Node f V
  | leaf k _ => leaf k v
  | branch k _ cs => branch k v cs

def withForest (n : Node f V) (cs : Forest f V) : Node f V := branch n.key n.value cs

/-- The node with these children, a leaf if there are none. -/
def withRemaining (n : Node f V) (cs : Forest f V) : Node f V :=
  match cs with
  | [] => leaf n.key n.value
  | _ :: _ => branch n.key n.value cs

end Node

def Forest.nodes (level : Forest f V) : List (Node f V) := level.map Slot.node

mutual

def Node.preorder : Node f V → List (Node f V)
  | .leaf k v => [.leaf k v]
  | .branch k v cs => .branch k v cs :: Forest.preorder cs

/-- All nodes, each before those below it. -/
def Forest.preorder : Forest f V → List (Node f V)
  | [] => []
  | ⟨_, n⟩ :: rest => n.preorder ++ Forest.preorder rest

end

mutual

def Node.outline (depth : Nat) : Node f V → List (Nat × Node f V)
  | .leaf k v => [(depth, .leaf k v)]
  | .branch k v cs => (depth, .branch k v cs) :: Forest.outline (depth + 1) cs

def Forest.outline (depth : Nat) : Forest f V → List (Nat × Node f V)
  | [] => []
  | ⟨_, n⟩ :: rest => n.outline depth ++ Forest.outline depth rest

end

mutual

def Node.count : Node f V → Nat
  | .leaf _ _ => 1
  | .branch _ _ cs => Forest.count cs + 1

def Forest.count : Forest f V → Nat
  | [] => 0
  | ⟨_, n⟩ :: rest => n.count + Forest.count rest

end

theorem Node.count_eq (n : Node f V) : n.count = Forest.count n.forest + 1 := by
  cases n <;> simp [Node.count, Node.forest, Forest.count]

namespace Forest

@[simp] theorem count_nil : count ([] : Forest f V) = 0 := by simp [count]

@[simp] theorem count_cons (s : Slot f (Node f V)) (rest : Forest f V) :
    count (s :: rest) = s.node.count + count rest := by
  obtain ⟨label, n⟩ := s
  simp [count]

theorem count_le_of_mem {n : Node f V} {level : Forest f V} (h : n ∈ nodes level) :
    n.count ≤ count level := by
  induction level with
  | nil => simp [nodes] at h
  | cons s rest ih =>
    rw [count_cons]
    rcases List.mem_cons.1 h with rfl | h
    · omega
    · have := ih h
      omega

theorem count_forest_lt {n : Node f V} {level : Forest f V} (h : n ∈ nodes level) :
    count n.forest < count level := by
  have := count_le_of_mem h
  rw [Node.count_eq] at this
  omega

def entries (level : Forest f V) : List (Interval f × V) :=
  (preorder level).map fun n => (n.key, n.value)

end Forest

mutual

def Node.decEq [DecidableEq V] : (m n : Node f V) → Decidable (m = n)
  | .leaf k v, .leaf k' v' =>
    decidable_of_iff (k = k' ∧ v = v') (by simp)
  | .leaf _ _, .branch _ _ _ => isFalse (by simp)
  | .branch _ _ _, .leaf _ _ => isFalse (by simp)
  | .branch k v cs, .branch k' v' cs' =>
    have := Forest.decEq cs cs'
    decidable_of_iff (k = k' ∧ v = v' ∧ cs = cs') (by simp)

def Forest.decEq [DecidableEq V] : (l m : Forest f V) → Decidable (l = m)
  | [], [] => isTrue rfl
  | [], _ :: _ => isFalse (by simp)
  | _ :: _, [] => isFalse (by simp)
  | ⟨i, n⟩ :: rest, ⟨i', n'⟩ :: rest' =>
    have := Node.decEq n n'
    have := Forest.decEq rest rest'
    decidable_of_iff (i = i' ∧ n = n' ∧ rest = rest') (by simp [and_assoc])

end

instance [DecidableEq V] : DecidableEq (Node f V) := Node.decEq

instance [DecidableEq V] : DecidableEq (Forest f V) := Forest.decEq

end Netblock
