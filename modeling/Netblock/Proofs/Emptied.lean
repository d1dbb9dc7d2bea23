import Netblock.Forest.Children
import Netblock.Proofs.Canonical

/-! # Levels emptied in place

Edits of a copied level of children keep it a level, also when its last child is gone. So an
emptied level is told apart from the children of a leaf, though both hold nothing; of levels
that hold something, the entries decide.
-/

namespace Netblock

variable {f : Family} {V : Type}

mutual

theorem Node.map_snd_outline : ∀ (depth : Nat) (n : Node f V),
    (n.outline depth).map Prod.snd = n.preorder
  | _, .leaf _ _ => by simp [Node.outline, Node.preorder]
  | depth, .branch _ _ cs => by
    simp [Node.outline, Node.preorder, Forest.map_snd_outline (depth + 1) cs]

theorem Forest.map_snd_outline : ∀ (depth : Nat) (level : Forest f V),
    (Forest.outline depth level).map Prod.snd = Forest.preorder level
  | _, [] => by simp [Forest.outline]
  | depth, ⟨_, n⟩ :: rest => by
    simp [Forest.outline, Node.map_snd_outline depth n, Forest.map_snd_outline depth rest]

end

namespace Children

/-- The entries below a node in preorder, each with its depth. -/
def listing (c : Children f V) : List (Nat × Interval f × V) :=
  (Forest.outline 0 c.forest).map fun p => (p.1, p.2.key, p.2.value)

/-- Both are the children of leaves, or they are levels that are alike. -/
def Alike : Children f V → Children f V → Prop
  | none, none => True
  | some level, some level' => level.Alike level'
  | _, _ => False

/-- What edits make of a copy of the children of a node. -/
inductive EditedFrom (n : Node f V) : Children f V → Prop where
  | copy : EditedFrom n n.children?
  | add {c : Children f V} {m : Node f V} (h : EditedFrom n c) (hm : m.Reachable) :
      EditedFrom n (c.add m).after
  | remove {c : Children f V} (h : EditedFrom n c) (k : Interval f) :
      EditedFrom n (c.remove k).after

variable {n n' m : Node f V} {c c' : Children f V} {k : Interval f}

theorem map_snd_listing (c : Children f V) : c.listing.map Prod.snd = c.forest.entries := by
  rw [listing, Forest.entries, ← Forest.map_snd_outline 0, List.map_map, List.map_map]
  rfl

theorem toList_ofChildren (c : Children f V) :
    (Cursor.ofChildren c).toList = c.forest.preorder := by
  cases c <;> simp [Cursor.toList_eq, Cursor.ofChildren, forest]

theorem isEmpty_eq_true_iff : c.isEmpty = true ↔ c = none := Option.isNone_iff_eq_none

theorem forest_of_isEmpty (h : c.isEmpty = true) : c.forest = [] := by
  rw [isEmpty_eq_true_iff.mp h]
  rfl

theorem isEmpty_add (c : Children f V) (m : Node f V) : (c.add m).after.isEmpty = c.isEmpty := by
  cases c <;> rfl

theorem isEmpty_remove (c : Children f V) (k : Interval f) :
    (c.remove k).after.isEmpty = c.isEmpty := by
  cases c <;> rfl

theorem EditedFrom.isEmpty_iff (h : EditedFrom n c) : c.isEmpty = true ↔ n.children? = none := by
  induction h with
  | copy => exact isEmpty_eq_true_iff
  | add _ _ ih => rwa [isEmpty_add]
  | remove _ k ih => rwa [isEmpty_remove]

theorem EditedFrom.wellFormed (h : EditedFrom n c) (hn : n.WellFormed) : c.forest.WellFormed := by
  induction h with
  | copy => cases n <;> exact hn.forest
  | @add c m _ hm ih =>
    cases c with
    | none => exact ih
    | some level => exact (Forest.add_added hm.wellFormed ih).wellFormed ih
  | @remove c _ k ih =>
    cases c with
    | none => exact ih
    | some level => exact (Forest.remove_removed ih).wellFormed ih

theorem eq_of_forest (hf : c.forest = c'.forest) (he : c.isEmpty = true ↔ c'.isEmpty = true) :
    c = c' := by
  cases c <;> cases c' <;> simp_all [isEmpty, forest]

theorem alike_iff (h : c.forest.WellFormed) (h' : c'.forest.WellFormed) :
    c.Alike c' ↔ c = c' := by
  cases c with
  | none => cases c' <;> simp [Alike]
  | some level =>
    cases c' with
    | none => simp [Alike]
    | some level' =>
      rw [Alike, Option.some_inj]
      exact Forest.WellFormed.alike_iff h h'

theorem forest_eq_of_listing (h : c.forest.WellFormed) (h' : c'.forest.WellFormed)
    (he : c.listing = c'.listing) : c.forest = c'.forest := by
  refine h.eq_of_entries h' ?_
  rw [← map_snd_listing, ← map_snd_listing, he]

theorem alike_iff_listing (h : c.forest.WellFormed) (h' : c'.forest.WellFormed) :
    c.Alike c' ↔ c.listing = c'.listing ∧ (c.isEmpty = true ↔ c'.isEmpty = true) := by
  rw [alike_iff h h']
  constructor
  · rintro rfl
    exact ⟨rfl, .rfl⟩
  · rintro ⟨hl, he⟩
    exact eq_of_forest (forest_eq_of_listing h h' hl) he

/-- Copies that were edited say that they are empty just where they were copied from leaves.
They are alike where they list the same, if something is left or if both or neither were copied
from leaves; what was emptied is otherwise unlike the children of a leaf. -/
theorem edited_copies (hn : n.Reachable) (hn' : n'.Reachable) (h : EditedFrom n c)
    (h' : EditedFrom n' c') :
    c.listing.map Prod.snd = (Cursor.ofChildren c).toList.map (fun m => (m.key, m.value)) ∧
    (c.isEmpty = true ↔ n.children? = none) ∧
    (c.isEmpty = true → c.forest.length = 0) ∧
    (c.Alike c' ↔ c.listing = c'.listing ∧ (n.children? = none ↔ n'.children? = none)) ∧
    (c.forest.length ≠ 0 → (c.Alike c' ↔ c.listing = c'.listing)) ∧
    (c.forest.length = 0 → (c.Alike none ↔ n.children? = none)) := by
  have hw := h.wellFormed hn.wellFormed
  have hw' := h'.wellFormed hn'.wellFormed
  have halike := alike_iff_listing hw hw'
  refine ⟨?_, h.isEmpty_iff, fun he => ?_, ?_, fun hne => ?_, fun _ => ?_⟩
  · rw [toList_ofChildren, map_snd_listing, Forest.entries]
  · rw [forest_of_isEmpty he]
    rfl
  · rw [halike, h.isEmpty_iff, h'.isEmpty_iff]
  · rw [halike]
    refine and_iff_left_of_imp fun hl => ?_
    have hf := forest_eq_of_listing hw hw' hl
    have hlevel (d : Children f V) (hd : d.forest = c.forest) : ¬ d.isEmpty = true := fun he =>
      hne (by rw [← hd, forest_of_isEmpty he]; rfl)
    exact iff_of_false (hlevel c rfl) (hlevel c' hf.symm)
  · have hnone : c.Alike none ↔ c = none := alike_iff hw .nil
    rw [hnone, ← isEmpty_eq_true_iff, h.isEmpty_iff]

theorem edited_copies_of_last_child :
    let k := Interval.whole .v4
    let i := k.start
    let n : Node .v4 Nat := .branch k 2 [⟨i, .leaf i 1⟩]
    let c := (Children.remove n.children? i).after
    c.forest.length = 0 ∧ c.isEmpty = false ∧ c.listing = Children.listing none ∧
      ¬ c.Alike none ∧ c.Alike c := by
  intro k i n c
  have hn : n.Reachable := (Node.Reachable.leaf k 2).add (.leaf i 1)
  have hc : EditedFrom n c := .remove .copy i
  have hcopy : EditedFrom (Node.leaf i 1) none := .copy
  have hlen : c.forest.length = 0 := by decide +kernel
  obtain ⟨-, hempty, -, hunlike, -, -⟩ := edited_copies hn (.leaf i 1) hc hcopy
  obtain ⟨-, -, -, halike, -, -⟩ := edited_copies hn hn hc hc
  have hleaf : ¬ n.children? = none := nofun
  refine ⟨hlen, by simpa using mt hempty.mp hleaf, by decide +kernel, ?_, halike.mpr ⟨rfl, .rfl⟩⟩
  rw [hunlike]
  exact fun h => hleaf (h.2.mpr rfl)

end Children

end Netblock
