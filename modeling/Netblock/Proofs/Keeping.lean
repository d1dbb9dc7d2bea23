import Netblock.Proofs.Reachable

/-! # What an addition keeps

An accepted node is stored with its value, and all other entries of the level stay. What the
node brings along below it is stored with it where its key is new. Where the key was stored
already only the value is replaced, and what is below the node is lost.
-/

namespace Netblock

open Netblock.Interval

variable {f : Family} {V : Type}

namespace Forest

variable {n : Node f V} {level : Forest f V} {e : Edit (Interval f) V (Forest f V)}
  {old : Option V} {x : Interval f × V}

namespace Added

theorem root_mem (h : Added n level e) (hr : e.result = .ok old) :
    (n.key, n.value) ∈ entries e.after := by
  cases h with
  | fresh _ _ _ perm =>
    rw [perm.mem_iff, Node.entries]
    exact List.mem_append_left _ List.mem_cons_self
  | replaced _ _ after_eq =>
    rw [after_eq]
    exact List.mem_append_right _ List.mem_cons_self
  | refused => cases hr

theorem mem_iff_of_ne {X Y : List (Interval f × V)} {k : Interval f} (v w : V) (hne : x.1 ≠ k) :
    x ∈ X ++ (k, v) :: Y ↔ x ∈ X ++ (k, w) :: Y := by
  have h (u : V) : x ≠ (k, u) := fun he => hne (congrArg Prod.fst he)
  simp [h]

theorem mem_of_mem (h : Added n level e) (hx : x ∈ entries level) (hne : x.1 ≠ n.key) :
    x ∈ entries e.after := by
  cases h with
  | fresh _ _ _ perm =>
    rw [perm.mem_iff]
    exact List.mem_append_right _ hx
  | replaced entries_eq _ after_eq =>
    rw [entries_eq] at hx
    rw [after_eq]
    exact (mem_iff_of_ne _ _ hne).mp hx
  | refused => exact hx

theorem mem_keys_of_mem {i : Interval f} (h : Added n level e) (hr : e.result = .ok old)
    (hi : i ∈ keys level) : i ∈ keys e.after := by
  by_cases hk : i = n.key
  · rw [hk]
    exact mem_keys_of_mem_entries (h.root_mem hr)
  · obtain ⟨x, hx, rfl⟩ := List.mem_map.mp hi
    exact mem_keys_of_mem_entries (h.mem_of_mem hx hk)

theorem mem_iff_of_mem_keys (h : Added n level e) (hn : n.WellFormed) (hk : n.key ∈ keys level)
    (hx : x ∈ entries n.forest) : x ∈ entries e.after ↔ x ∈ entries level := by
  have hne : x.1 ≠ n.key := (hn.inside_of_mem_keys (mem_keys_of_mem_entries hx)).2
  cases h with
  | fresh notMem => exact absurd hk notMem
  | replaced entries_eq _ after_eq =>
    rw [entries_eq, after_eq]
    exact mem_iff_of_ne _ _ hne
  | refused => exact .rfl

/-- What is below an accepted node is stored exactly where its key is new, or where nothing
below it would have to be added. -/
theorem below_mem_iff (h : Added n level e) (hn : n.WellFormed) (hr : e.result = .ok old) :
    (∀ x ∈ entries n.forest, x ∈ entries e.after) ↔
      n.key ∉ keys level ∨ ∀ x ∈ entries n.forest, x ∈ entries level := by
  by_cases hk : n.key ∈ keys level
  · have hiff (x) (hx : x ∈ entries n.forest) := h.mem_iff_of_mem_keys hn hk hx
    rw [or_iff_right (not_not_intro hk)]
    exact forall₂_congr hiff
  · refine iff_of_true (fun x hx => ?_) (.inl hk)
    cases h with
    | fresh _ _ _ perm =>
      rw [perm.mem_iff, Node.entries]
      exact List.mem_append_left _ (List.mem_cons_of_mem _ hx)
    | replaced entries_eq =>
      refine absurd ?_ hk
      simp [keys, entries_eq]
    | refused => cases hr

end Added

end Forest

open Forest

/-- An accepted addition loses no entry of the level other than the value it replaces, and
loses what is below the node just where the key of the node is stored already. -/
theorem add_keeps_entries {level : Forest f V} {n : Node f V} {old : Option V}
    (h : level.Reachable) (hn : n.Reachable) (hr : (level.add n).result = .ok old) :
    (∀ i ∈ keys level, i ∈ keys (level.add n).after) ∧
    (∀ x ∈ entries level, x.1 ≠ n.key → x ∈ entries (level.add n).after) ∧
    (n.key, n.value) ∈ entries (level.add n).after ∧
    ((∀ x ∈ entries n.forest, x ∈ entries (level.add n).after) ↔
      n.key ∉ keys level ∨ ∀ x ∈ entries n.forest, x ∈ entries level) := by
  have ha := add_added hn.wellFormed h.wellFormed
  refine ⟨?_, ?_, ha.root_mem hr, ha.below_mem_iff hn.wellFormed hr⟩
  · intro i hi
    exact ha.mem_keys_of_mem hr hi
  · intro x hx hne
    exact ha.mem_of_mem hx hne

theorem add_keeps_entries_of_stored_key :
    let k := whole .v4
    let i := k.start
    let j := ofAddress k.lastAddress
    let n : Node .v4 Nat := .branch k 2 [⟨j, .leaf j 3⟩]
    let level : Forest .v4 Nat := [⟨k, .branch k 0 [⟨i, .leaf i 1⟩]⟩]
    (level.add n).result = .ok (some 0) ∧ (k, 2) ∈ entries (level.add n).after ∧
      (i, 1) ∈ entries (level.add n).after ∧
      ¬ ∀ x ∈ entries n.forest, x ∈ entries (level.add n).after := by
  intro k i j n level
  have hn : n.Reachable := (Node.Reachable.leaf k 2).add (.leaf j 3)
  have hl : level.Reachable := by
    have he : (Forest.add [⟨i, .leaf i 1⟩] (.leaf k 0)).after = level := by decide +kernel
    exact he ▸ (Forest.Reachable.empty.add (.leaf i 1)).add (.leaf k 0)
  have hr : (level.add n).result = .ok (some 0) := by decide +kernel
  obtain ⟨-, hother, hroot, hbelow⟩ := add_keeps_entries hl hn hr
  refine ⟨hr, hroot, hother (i, 1) (by decide) (by decide), ?_⟩
  rw [hbelow]
  decide

end Netblock
