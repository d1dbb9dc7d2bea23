import Netblock.Forest.Edit

/-! # Log records

The wording of errors and events. Keys are written by a function that the caller gives.
-/

namespace Netblock

inductive LogLevel | trace | debug | info | warn
  deriving DecidableEq, Repr

structure LogRecord where
  level : LogLevel
  message : String
  fields : List (String × String)
  deriving DecidableEq, Repr

variable {K : Type}

def bracketed (describe : K → String) (keys : List K) : String :=
  "[" ++ ", ".intercalate (keys.map describe) ++ "]"

def LeafEdit.name : LeafEdit → String
  | .add => "add_child"
  | .remove => "remove_child"

def EditError.message (describe : K → String) : EditError K → String
  | .overlap key conflicts =>
    s!"{describe key} intersects with existing {bracketed describe conflicts}"
  | .noLevel edit => s!"unsupported operation on empty child node map: {edit.name}"
  | .outside parent child => s!"{describe child} is not contained by {describe parent}"

def Event.record (describe : K → String) : Event K → LogRecord
  | .refusedOverlap key conflicts =>
    ⟨.debug, "rejecting intersecting interval",
      [("interval", describe key), ("intersections", bracketed describe conflicts)]⟩
  | .refusedSubtree key conflict =>
    ⟨.debug, "rejecting subtree that cannot absorb siblings",
      [("interval", describe key), ("conflict", describe conflict)]⟩
  | .absorbing key count =>
    ⟨.trace, "absorbing siblings", [("interval", describe key), ("absorbed", toString count)]⟩
  | .promoting key count =>
    ⟨.trace, "promoting children of removed node",
      [("interval", describe key), ("promoted", toString count)]⟩
  | .removed key => ⟨.trace, "removed interval", [("key", describe key)]⟩

end Netblock
