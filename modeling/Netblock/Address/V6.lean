import Netblock.Address.V4

/-! # IPv6 address text

An address is eight groups of hexadecimal digits with colons between them. Once, `::`
may stand for one or more zero groups, and the last two groups may be written as a
dotted quad. Written is the shortest such form: the leftmost longest run of at least two
zero groups as `::`, and a quad where the first 96 bits are those of `::ffff:0:0`.
-/

namespace Netblock.Address.V6

open Text

def group? (cs : List Char) : Option Nat :=
  if cs.length ≤ 4 then Numeral.read? 16 cs else none

/-- An octet of a quad: one to three decimal digits, the first not a leading zero. -/
def octet? (cs : List Char) : Option Nat :=
  if cs.length ≤ 3 ∧ (cs.head? = some '0' → cs.length = 1) then
    (Numeral.read? 10 cs).filter (· < Family.v4.base)
  else none

/-- The two groups that a dotted quad stands for. -/
def quad? (cs : List Char) : Option (List Nat) := do
  match ← (pieces '.' cs).mapM octet? with
  | [a, b, c, d] => some [joinDigits Family.v4.base [a, b], joinDigits Family.v4.base [c, d]]
  | _ => none

def groups? : List (List Char) → Option (List Nat)
  | [] => some []
  | [last] => (quad? last).orElse fun _ => (group? last).map ([·])
  | first :: rest => do return (← group? first) :: (← groups? rest)

def parts (cs : List Char) : List (List Char) := if cs = [] then [] else pieces ':' cs

/-- The texts before and after the first `::`. -/
def cutGap : List Char → Option (List Char × List Char)
  | [] => none
  | ':' :: ':' :: rest => some ([], rest)
  | c :: rest => (cutGap rest).map fun p => (c :: p.1, p.2)

/-- Eight groups from those before and after `::`, which stands for at least one. -/
def fillGap (before after : List Nat) : Option (List Nat) :=
  let missing := Family.v6.digitCount - (before.length + after.length)
  if missing = 0 then none else some (before ++ List.replicate missing 0 ++ after)

def allGroups? (cs : List Char) : Option (List Nat) :=
  match cutGap cs with
  | none => groups? (pieces ':' cs)
  | some (before, after) => do
    fillGap (← (parts before).mapM group?) (← groups? (parts after))

def read? (cs : List Char) : Option (Address .v6) := (allGroups? cs).bind (ofDigits? .v6)

def writeGroups (groups : List Nat) : List Char :=
  List.intercalate [':'] (groups.map (Numeral.write 16))

/-- Where the leftmost longest run of zeros starts, and its length. -/
def zeroRun : List Nat → Nat × Nat
  | [] => (0, 0)
  | g :: rest =>
    let here := ((g :: rest).takeWhile (· == 0)).length
    let later := zeroRun rest
    if later.2 ≤ here then (0, here) else (later.1 + 1, later.2)

/-- The octets of the embedded IPv4 address, where the first 96 bits say there is one. -/
def embedded? : List Nat → Option (List Nat)
  | [0, 0, 0, 0, 0, 0xffff, high, low] =>
    some (splitDigits Family.v4.base 2 high ++ splitDigits Family.v4.base 2 low)
  | _ => none

def write (a : Address .v6) : List Char :=
  let groups := a.digits
  match embedded? groups with
  | some octets => "::ffff:".toList ++ V4.writeOctets octets
  | none =>
    let (start, length) := zeroRun groups
    if 2 ≤ length then
      writeGroups (groups.take start) ++ "::".toList ++ writeGroups (groups.drop (start + length))
    else writeGroups groups

end Netblock.Address.V6
