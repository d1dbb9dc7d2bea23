import Netblock.Registry

/-! # Queries as data

The eight queries of a registry, as a user asks for them.
-/

namespace Netblock

inductive Query
  | exact
  | firstLess
  | exactOrFirstLess
  | allLess
  | exactAndAllLess
  | firstMore
  | allMore
  | exactAndAllMore
  deriving DecidableEq, Repr

namespace Query

variable {V : Type}

/-- The values that a query answers; a query for one value answers at most one. -/
def run (q : Query) (r : Registry V) (b : Block) : List V :=
  match q with
  | exact => (r.get? b).toList
  | firstLess => (r.firstLess? b).toList
  | exactOrFirstLess => (r.exactOrFirstLess? b).toList
  | allLess => r.allLess b
  | exactAndAllLess => r.exactAndAllLess b
  | firstMore => r.firstMore b
  | allMore => r.allMore b
  | exactAndAllMore => r.exactAndAllMore b

end Query

end Netblock
