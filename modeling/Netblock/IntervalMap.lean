import Netblock.Forest.Add
import Netblock.Forest.Cursor
import Netblock.Forest.Remove

/-! # Maps from intervals

A map holds one value for each of its intervals, of which no two partly overlap. An interval
is less specific than those inside it and more specific than those around it. Queries for
less specific intervals answer the outermost first, queries for more specific ones in the
order of the intervals.
-/

namespace Netblock

structure IntervalMap (f : Family) (V : Type) where
  roots : Forest f V
  size : Nat
  deriving DecidableEq

namespace IntervalMap

variable {f : Family} {V : Type}

def empty : IntervalMap f V := ⟨[], 0⟩

def isEmpty (m : IntervalMap f V) : Bool := m.size == 0

def toList (m : IntervalMap f V) : List (Interval f × V) :=
  (Cursor.ofForest m.roots).toList.map fun n => (n.key, n.value)

/-- Sets the value of `k`. Refused where `k` partly overlaps an interval of the map. -/
def insert (m : IntervalMap f V) (k : Interval f) (v : V) :
    Edit (Interval f) V (IntervalMap f V) :=
  let e := m.roots.add (.leaf k v)
  let size := match e.result with
    | .ok none => m.size + 1
    | _ => m.size
  e.map fun roots => ⟨roots, size⟩

def erase (m : IntervalMap f V) (k : Interval f) : Removal (Interval f) V (IntervalMap f V) :=
  let r := Forest.remove k m.roots
  match r.removed with
  | none => r.map fun roots => ⟨roots, m.size⟩
  | some v => ⟨some v, ⟨r.after, m.size - 1⟩, r.events ++ [.removed k]⟩

def clear (_m : IntervalMap f V) : IntervalMap f V := empty

/-- The node of `k`, or else the smallest around it. -/
def nearest? (m : IntervalMap f V) (k : Interval f) : Option (Node f V) :=
  Forest.nearest? k m.roots

def around (m : IntervalMap f V) (k : Interval f) : List (Node f V) :=
  let chain := Forest.chain k m.roots
  match chain.getLast? with
  | some n => if n.key = k then chain.dropLast else chain
  | none => chain

/-- The nodes strictly inside `k`, and that of `k` itself if it is asked for. -/
def inside (m : IntervalMap f V) (k : Interval f) (withExact : Bool) : List (Node f V) :=
  match m.nearest? k with
  | none => Forest.inside k m.roots
  | some n =>
    if n.key = k then (if withExact then [n] else []) ++ Forest.preorder n.forest
    else Forest.inside k n.forest

def get? (m : IntervalMap f V) (k : Interval f) : Option V :=
  ((m.nearest? k).filter fun n => decide (n.key = k)).map Node.value

def firstLess? (m : IntervalMap f V) (k : Interval f) : Option V :=
  (m.around k).getLast?.map Node.value

def exactOrFirstLess? (m : IntervalMap f V) (k : Interval f) : Option V :=
  (m.nearest? k).map Node.value

def allLess (m : IntervalMap f V) (k : Interval f) : List V := (m.around k).map Node.value

def exactAndAllLess (m : IntervalMap f V) (k : Interval f) : List V :=
  (Forest.chain k m.roots).map Node.value

def firstMore (m : IntervalMap f V) (k : Interval f) : List V :=
  let level := match m.nearest? k with
    | none => m.roots
    | some n => n.forest
  (Forest.outermost k level).map Node.value

def allMore (m : IntervalMap f V) (k : Interval f) : List V := (m.inside k false).map Node.value

def exactAndAllMore (m : IntervalMap f V) (k : Interval f) : List V :=
  (m.inside k true).map Node.value

def eraseValue [DecidableEq V] (m : IntervalMap f V) (k : Interval f) (v : V) :
    Removal (Interval f) V (IntervalMap f V) :=
  if m.get? k = some v then m.erase k else ⟨none, m, []⟩

end IntervalMap

end Netblock
