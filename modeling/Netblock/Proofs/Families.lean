import Netblock.Proofs.Reachable
import Netblock.Registry

/-! # Registries that edits reach

An edit of a registry is an edit of the map of one family. So the maps of a registry that is
built up by edits are themselves built up by edits.
-/

namespace Netblock

variable {V : Type} {f : Family}

namespace Block

def ofFamily? : (f : Family) → Block → Option (Interval f)
  | .v4, ⟨.v4, i⟩ => some i
  | .v6, ⟨.v6, i⟩ => some i
  | .v4, ⟨.v6, _⟩ => none
  | .v6, ⟨.v4, _⟩ => none

theorem ofFamily?_mk (i : Interval f) : ofFamily? f ⟨f, i⟩ = some i := by
  cases f <;> rfl

theorem ofFamily?_eq_none_iff {b : Block} : b.ofFamily? f = none ↔ b.family ≠ f := by
  obtain ⟨_ | _, i⟩ := b <;> cases f <;> simp [ofFamily?]

theorem ofFamily?_eq_some_iff {b : Block} {i : Interval f} :
    b.ofFamily? f = some i ↔ b = ⟨f, i⟩ := by
  constructor
  · intro h
    obtain ⟨g, j⟩ := b
    obtain rfl : g = f := by
      by_contra hne
      rw [ofFamily?_eq_none_iff.mpr hne] at h
      cases h
    rw [ofFamily?_mk] at h
    rw [Option.some_inj.mp h]
  · rintro rfl
    exact ofFamily?_mk i

def PartlyOverlaps (a b : Block) : Prop :=
  ∃ i ∈ a.ofFamily? b.family, i.PartlyOverlaps b.interval

instance (a b : Block) : Decidable (a.PartlyOverlaps b) := by
  unfold PartlyOverlaps; infer_instance

theorem partlyOverlaps_mk_iff {a : Block} {j : Interval f} :
    a.PartlyOverlaps ⟨f, j⟩ ↔ ∃ i, a = ⟨f, i⟩ ∧ i.PartlyOverlaps j := by
  simp only [PartlyOverlaps, Option.mem_def, ofFamily?_eq_some_iff]

end Block

namespace Registry

variable {r r' : Registry V}

theorem map_empty (f : Family) : (empty : Registry V).map f = .empty := by
  cases f <;> rfl

theorem ext_map (h : ∀ f, r.map f = r'.map f) : r = r' := by
  cases r
  cases r'
  exact congrArg₂ mk (h .v4) (h .v6)

inductive Reachable : Registry V → Prop where
  | empty : Reachable empty
  | insert {r : Registry V} (h : Reachable r) (b : Block) (v : V) :
      Reachable (r.insert b v).after
  | erase {r : Registry V} (h : Reachable r) (b : Block) : Reachable (r.erase b).after
  | eraseValue [DecidableEq V] {r : Registry V} (h : Reachable r) (b : Block) (v : V) :
      Reachable (r.eraseValue b v).after
  | clear {r : Registry V} (h : Reachable r) : Reachable r.clear

theorem reachable_map_setMap (h : ∀ g, (r.map g).Reachable) {f : Family} {m : IntervalMap f V}
    (hm : m.Reachable) (g : Family) : ((r.setMap f m).map g).Reachable := by
  by_cases hg : f = g
  · subst hg
    rw [map_setMap]
    exact hm
  · rw [map_setMap_of_ne hg]
    exact h g

theorem Reachable.map (h : r.Reachable) : ∀ g, (r.map g).Reachable := by
  induction h with
  | empty => rintro (_ | _) <;> exact .empty
  | insert _ b v ih => exact reachable_map_setMap ih ((ih b.family).insert b.interval v)
  | erase _ b ih => exact reachable_map_setMap ih ((ih b.family).erase b.interval)
  | eraseValue _ b v ih => exact reachable_map_setMap ih ((ih b.family).eraseValue b.interval v)
  | clear _ ih =>
    rintro (_ | _)
    · exact (ih .v4).clear
    · exact (ih .v6).clear

end Registry

end Netblock
