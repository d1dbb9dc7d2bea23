import Netblock.Address.Text
import Netblock.Interval
import Netblock.Text.Blank

/-! # Interval text

An interval is written as a prefix, `address/length`, where it is one, and otherwise as a
range, `first - last`. Read are prefixes, ranges and single addresses, with blanks at the
ends and around the separator; bits of a prefix beyond its length are cleared.
-/

namespace Netblock

open Text

inductive ParseError where
  | reversed (first last : String)
  | badAddress (text : String)
  | badLength (text : String)
  deriving DecidableEq, Repr

def ParseError.message : ParseError → String
  | .reversed first last => s!"begin {first} not before end {last}"
  | .badAddress text => s!"{text} is not a valid address"
  | .badLength text => s!"prefix length {text} is invalid"

namespace Interval

variable {f : Family}

def readAddress (f : Family) (cs : List Char) : Except ParseError (Address f) :=
  match Address.read? f cs with
  | some a => .ok a
  | none => .error (.badAddress (String.ofList cs))

/-- The largest number that can be read as a prefix length, for either family. -/
def lengthLimit : Nat := 255

def readLength? (cs : List Char) : Option Nat :=
  let digits := match cs with
    | '+' :: rest => rest
    | _ => cs
  (Numeral.read? 10 digits).filter (· ≤ lengthLimit)

def between (a b : Address f) : Except ParseError (Interval f) :=
  match between? a b with
  | some i => .ok i
  | none => .error (.reversed (String.ofList a.write) (String.ofList b.write))

def ofPrefix (a : Address f) (n : Nat) : Except ParseError (Interval f) :=
  match ofPrefix? a n with
  | some i => .ok i
  | none => .error (.badLength (String.ofList (Numeral.write 10 n)))

def readPrefix (f : Family) (address length : List Char) : Except ParseError (Interval f) := do
  let a ← readAddress f address
  match readLength? length with
  | some n => ofPrefix a n
  | none => .error (.badLength (String.ofList length))

def readRange (f : Family) (first last : List Char) : Except ParseError (Interval f) := do
  let a ← readAddress f first
  let b ← readAddress f last
  between a b

/-- Reads a prefix where there is a slash, else a range where there is a dash, else an
address. Only the first separator counts. -/
def read (f : Family) (cs : List Char) : Except ParseError (Interval f) :=
  let cs := trim cs
  match cut '/' cs with
  | some (address, length) => readPrefix f (trim address) (trim length)
  | none => match cut '-' cs with
    | some (first, last) => readRange f (trim first) (trim last)
    | none => (readAddress f cs).map ofAddress

/-- The range form, also of an interval that is a prefix. -/
def writeRange (i : Interval f) : List Char :=
  i.firstAddress.write ++ " - ".toList ++ i.lastAddress.write

def write (i : Interval f) : List Char :=
  match i.prefixLength? with
  | some n => i.firstAddress.write ++ '/' :: Numeral.write 10 n
  | none => i.writeRange

def parse (f : Family) (s : String) : Except ParseError (Interval f) := read f s.toList

def text (i : Interval f) : String := String.ofList i.write

def rangeText (i : Interval f) : String := String.ofList i.writeRange

def describe (i : Interval f) : String :=
  let name := match f with
    | .v4 => "Ipv4Interval"
    | .v6 => "Ipv6Interval"
  s!"{name} \x7b begin: {i.first}, end: {i.last} \x7d"

end Interval

end Netblock
