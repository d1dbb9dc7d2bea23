import Netblock.Interval.Text

/-! # Address blocks

An interval of either family. The text of a block tells its family: a colon stands in
every IPv6 address and in no IPv4 address.
-/

namespace Netblock

structure Block where
  family : Family
  interval : Interval family
  deriving DecidableEq

namespace Block

def ofAddress {f : Family} (a : Address f) : Block := ⟨f, Interval.ofAddress a⟩

def familyOf (cs : List Char) : Family := if ':' ∈ cs then .v6 else .v4

def read (cs : List Char) : Except ParseError Block :=
  (Interval.read (familyOf cs) cs).map (Block.mk (familyOf cs))

def write (b : Block) : List Char := b.interval.write

def parse (s : String) : Except ParseError Block := read s.toList

def text (b : Block) : String := b.interval.text

def rangeText (b : Block) : String := b.interval.rangeText

def prefixLength? (b : Block) : Option Nat := b.interval.prefixLength?

def describe (b : Block) : String :=
  let mark := match b.family with
    | .v4 => "V4"
    | .v6 => "V6"
  s!"{mark}({b.interval.describe})"

/-- IPv4 before IPv6, and within a family the order of intervals. -/
def compare : Block → Block → Ordering
  | ⟨.v4, i⟩, ⟨.v4, j⟩ => i.compare j
  | ⟨.v4, _⟩, ⟨.v6, _⟩ => .lt
  | ⟨.v6, _⟩, ⟨.v4, _⟩ => .gt
  | ⟨.v6, i⟩, ⟨.v6, j⟩ => i.compare j

end Block

end Netblock
