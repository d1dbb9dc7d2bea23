import Netblock.Address.V6

/-! # Address text

The written form of an address, read and written by the rules of its family.
-/

namespace Netblock.Address

def read? : (f : Family) → List Char → Option (Address f)
  | .v4 => V4.read?
  | .v6 => V6.read?

def write : {f : Family} → Address f → List Char
  | .v4 => V4.write
  | .v6 => V6.write

end Netblock.Address
