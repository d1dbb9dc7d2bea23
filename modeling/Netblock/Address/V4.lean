import Netblock.Address
import Netblock.Text.Split

/-! # IPv4 address text

An address is written as four octets with dots between them. Read are one to four
octets of decimal digits, any number of leading zeros among them; the octets that are
left out at the end are zero.
-/

namespace Netblock.Address.V4

open Text

def writeOctets (octets : List Nat) : List Char :=
  List.intercalate ['.'] (octets.map (Numeral.write 10))

def write (a : Address .v4) : List Char := writeOctets a.digits

/-- Fills the octets that are left out with zeros. -/
def complete (octets : List Nat) : List Nat :=
  octets ++ List.replicate (Family.v4.digitCount - octets.length) 0

def read? (cs : List Char) : Option (Address .v4) :=
  ((pieces '.' cs).mapM (Numeral.read? 10)).bind fun octets => ofDigits? .v4 (complete octets)

end Netblock.Address.V4
