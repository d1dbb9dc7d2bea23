import Netblock.Interval

/-! # Edits

What an edit answers: its result, what is there afterwards, also after a refusal, and the
events on the way. Errors and events are the same for keys of every type; `mapKeys`
changes the type.
-/

namespace Netblock

inductive LeafEdit | add | remove
  deriving DecidableEq, Repr

inductive EditError (K : Type) where
  | overlap (key : K) (conflicts : List K)
  | noLevel (edit : LeafEdit)
  | outside (parent child : K)
  deriving DecidableEq, Repr

inductive Event (K : Type) where
  | refusedOverlap (key : K) (conflicts : List K)
  | refusedSubtree (key conflict : K)
  | absorbing (key : K) (count : Nat)
  | promoting (key : K) (count : Nat)
  | removed (key : K)
  deriving DecidableEq, Repr

variable {K L V σ τ : Type}

def EditError.mapKeys (g : K → L) : EditError K → EditError L
  | .overlap key conflicts => .overlap (g key) (conflicts.map g)
  | .noLevel edit => .noLevel edit
  | .outside parent child => .outside (g parent) (g child)

def Event.mapKeys (g : K → L) : Event K → Event L
  | .refusedOverlap key conflicts => .refusedOverlap (g key) (conflicts.map g)
  | .refusedSubtree key conflict => .refusedSubtree (g key) (g conflict)
  | .absorbing key count => .absorbing (g key) count
  | .promoting key count => .promoting (g key) count
  | .removed key => .removed (g key)

/-- An edit that may be refused; it answers a replaced or removed value. -/
structure Edit (K V σ : Type) where
  result : Except (EditError K) (Option V)
  after : σ
  events : List (Event K)

namespace Edit

def map (g : σ → τ) (e : Edit K V σ) : Edit K V τ := ⟨e.result, g e.after, e.events⟩

def mapKeys (g : K → L) (e : Edit K V σ) : Edit L V σ :=
  ⟨e.result.mapError (EditError.mapKeys g), e.after, e.events.map (Event.mapKeys g)⟩

end Edit

/-- A removal, which is never refused; it answers the removed value. -/
structure Removal (K V σ : Type) where
  removed : Option V
  after : σ
  events : List (Event K)

namespace Removal

def map (g : σ → τ) (r : Removal K V σ) : Removal K V τ := ⟨r.removed, g r.after, r.events⟩

def mapKeys (g : K → L) (r : Removal K V σ) : Removal L V σ :=
  ⟨r.removed, r.after, r.events.map (Event.mapKeys g)⟩

def toEdit (r : Removal K V σ) : Edit K V σ := ⟨.ok r.removed, r.after, r.events⟩

end Removal

end Netblock
