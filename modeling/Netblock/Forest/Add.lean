import Netblock.Forest.Edit
import Netblock.Forest.Search

/-! # Adding to a forest

A node is added below the sibling that contains it, or else beside the siblings, with those
inside it moved below it. It is refused where it partly overlaps a sibling, or where a
sibling inside it does not nest with the nodes that it brings along.
-/

namespace Netblock

variable {f : Family} {V : Type}

abbrev Adder (f : Family) (V : Type) :=
  Node f V → Forest f V → Edit (Interval f) V (Forest f V)

/-- Adds a node to the subtree of another: at the same key the value is replaced and nothing
else, inside the key the node is added to the level below. -/
def Node.addBy (add : Adder f V) (n parent : Node f V) : Edit (Interval f) V (Node f V) :=
  if parent.key = n.key then ⟨.ok (some parent.value), parent.withValue n.value, []⟩
  else if parent.key.Contains n.key then (add n parent.forest).map parent.withForest
  else ⟨.error (.outside parent.key n.key), parent, []⟩

/-- The state of a move of siblings below a node, with the refusal that ended it. -/
structure Absorption (f : Family) (V : Type) where
  refusal : Option (EditError (Interval f))
  node : Node f V
  remaining : Forest f V
  events : List (Event (Interval f))

namespace Forest

/-- Moves the siblings in the slots of these labels below a node, one after the other. -/
def absorb (add : Adder f V) :
    List (Interval f) → Node f V → Forest f V → Absorption f V
  | [], n, level => ⟨none, n, level, []⟩
  | label :: labels, n, level =>
    match extract? label level with
    | none => absorb add labels n level
    | some (sibling, remaining) =>
      let e := Node.addBy add sibling n
      match e.result with
      | .error refusal => ⟨some refusal, e.after, remaining, e.events⟩
      | .ok _ =>
        let a := absorb add labels e.after remaining
        { a with events := e.events ++ a.events }

/-- The first key in these subtrees that the level below a node does not accept. -/
def misfit? (n : Node f V) (subtrees : Forest f V) : Option (Interval f) :=
  ((preorder subtrees).map Node.key).find? fun k => !accepts k n.forest

/-- Puts a node into its slot. The value of a node with the same key is answered. -/
def settle (n : Node f V) (level : Forest f V) (events : List (Event (Interval f))) :
    Edit (Interval f) V (Forest f V) :=
  match place n level with
  | (some old, placed) => ⟨.ok (if old.key = n.key then some old.value else none), placed, events⟩
  | (none, placed) => ⟨.ok none, placed, events⟩

/-- Adds a node to a level, where `add` is the way to add nodes to the levels below. -/
def addBy (add : Adder f V) : Adder f V := fun n level =>
  match enclosing? n.key level with
  | some parent => (Node.addBy add n parent).map fun p => replace n.key.first p level
  | none =>
    match conflicts n.key level with
    | c :: cs =>
      ⟨.error (.overlap n.key (c :: cs)), level, [.refusedOverlap n.key (c :: cs)]⟩
    | [] =>
      match contained n.key level with
      | [] => settle n level []
      | s :: run =>
        match misfit? n (s :: run) with
        | some k => ⟨.error (.overlap n.key [k]), level, [.refusedSubtree n.key k]⟩
        | none =>
          let a := absorb add ((s :: run).map Slot.label) n level
          let events := .absorbing n.key (s :: run).length :: a.events
          match a.refusal with
          | some refusal => ⟨.error refusal, a.remaining, events⟩
          | none => settle a.node a.remaining events

/-- Adds a node with a bound on the depth of the recursion. Past the bound it is refused
without a conflict. -/
def addWithin : Nat → Adder f V
  | 0 => fun n level => ⟨.error (.overlap n.key []), level, []⟩
  | fuel + 1 => addBy (addWithin fuel)

/-- Adds a node with all that is below it. Every step of the recursion leaves out a node, so
the number of nodes bounds its depth. -/
def add (level : Forest f V) (n : Node f V) : Edit (Interval f) V (Forest f V) :=
  addWithin (n.count + count level) n level

end Forest

def Node.add (parent n : Node f V) : Edit (Interval f) V (Node f V) :=
  Node.addBy (fun n level => Forest.add level n) n parent

end Netblock
