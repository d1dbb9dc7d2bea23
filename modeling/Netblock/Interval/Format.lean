import Netblock.Block

/-! # Intervals in text formats

An interval or a block is stored as its text, in any format that stores texts. Its characters are
digits, letters, dots, colons, slashes, dashes and spaces, none of which JSON escapes.
-/

namespace Netblock

/-- A format that stores texts as `J`. Its own errors and those of its users are both `E`. -/
structure TextFormat (J E : Type) where
  encode : String → J
  decode : J → Except E String
  custom : String → E

/-- The characters of a text stand for themselves in a JSON string: no control character, no
quote and no backslash is among them. -/
def Unescaped (s : String) : Prop :=
  ∀ c ∈ s.toList, 0x20 ≤ c.toNat ∧ c.toNat ≠ 0x22 ∧ c.toNat ≠ 0x5C

namespace TextFormat

variable {J E α : Type} (t : TextFormat J E)

/-- What is relied on of a format: it reads back the texts in which there is nothing to escape. -/
def ReadsBack : Prop := ∀ s, Unescaped s → t.decode (t.encode s) = .ok s

def restore (parse : String → Except ParseError α) (j : J) : Except E α :=
  match t.decode j with
  | .error error => .error error
  | .ok s => (parse s).mapError fun error => t.custom error.message

end TextFormat

variable {J E : Type} (t : TextFormat J E)

def Interval.store {f : Family} (i : Interval f) : J := t.encode i.text

def Interval.restore (f : Family) : J → Except E (Interval f) := t.restore (Interval.parse f)

def Block.store (b : Block) : J := t.encode b.text

def Block.restore : J → Except E Block := t.restore Block.parse

end Netblock
