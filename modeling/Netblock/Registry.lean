import Netblock.Block
import Netblock.IntervalMap

/-! # Registries

A registry maps blocks of both families, with one map for each. An edit or a query goes to
the map of the family of its block, and the other map takes no part in it.
-/

namespace Netblock

structure Registry (V : Type) where
  v4 : IntervalMap .v4 V
  v6 : IntervalMap .v6 V
  deriving DecidableEq

namespace Registry

variable {V : Type}

def empty : Registry V := ⟨.empty, .empty⟩

def size (r : Registry V) : Nat := r.v4.size + r.v6.size

def isEmpty (r : Registry V) : Bool := r.v4.isEmpty && r.v6.isEmpty

def map (r : Registry V) : (f : Family) → IntervalMap f V
  | .v4 => r.v4
  | .v6 => r.v6

def setMap (r : Registry V) : (f : Family) → IntervalMap f V → Registry V
  | .v4, m => { r with v4 := m }
  | .v6, m => { r with v6 := m }

@[simp] theorem map_setMap (r : Registry V) (f : Family) (m : IntervalMap f V) :
    (r.setMap f m).map f = m := by cases f <;> rfl

@[simp] theorem setMap_map (r : Registry V) (f : Family) : r.setMap f (r.map f) = r := by
  cases f <;> rfl

theorem map_setMap_of_ne {f g : Family} (h : f ≠ g) (r : Registry V) (m : IntervalMap f V) :
    (r.setMap f m).map g = r.map g := by
  cases f <;> cases g <;> first | rfl | exact absurd rfl h

def insert (r : Registry V) (b : Block) (v : V) : Edit Block V (Registry V) :=
  (((r.map b.family).insert b.interval v).map (r.setMap b.family)).mapKeys (Block.mk b.family)

def erase (r : Registry V) (b : Block) : Removal Block V (Registry V) :=
  (((r.map b.family).erase b.interval).map (r.setMap b.family)).mapKeys (Block.mk b.family)

def eraseValue [DecidableEq V] (r : Registry V) (b : Block) (v : V) :
    Removal Block V (Registry V) :=
  (((r.map b.family).eraseValue b.interval v).map (r.setMap b.family)).mapKeys (Block.mk b.family)

def clear (r : Registry V) : Registry V := ⟨r.v4.clear, r.v6.clear⟩

def get? (r : Registry V) (b : Block) : Option V := (r.map b.family).get? b.interval

def firstLess? (r : Registry V) (b : Block) : Option V :=
  (r.map b.family).firstLess? b.interval

def exactOrFirstLess? (r : Registry V) (b : Block) : Option V :=
  (r.map b.family).exactOrFirstLess? b.interval

def allLess (r : Registry V) (b : Block) : List V := (r.map b.family).allLess b.interval

def exactAndAllLess (r : Registry V) (b : Block) : List V :=
  (r.map b.family).exactAndAllLess b.interval

def firstMore (r : Registry V) (b : Block) : List V := (r.map b.family).firstMore b.interval

def allMore (r : Registry V) (b : Block) : List V := (r.map b.family).allMore b.interval

def exactAndAllMore (r : Registry V) (b : Block) : List V :=
  (r.map b.family).exactAndAllMore b.interval

end Registry

end Netblock
