import Netblock.Proofs.Reachable

/-! # Edits below a node

A node takes in what its key contains, and refuses everything else. The level below it then
decides, so a refusal leaves the node as it was, and a removal takes a single entry out of
those below it.
-/

namespace Netblock

open Netblock.Interval

variable {f : Family} {V : Type}

namespace Forest

variable {n : Node f V} {level : Forest f V} {k : Interval f} {v : V}

theorem Added.of_error {e : Edit (Interval f) V (Forest f V)} {err : EditError (Interval f)}
    (h : Added n level e) (he : e.result = .error err) :
    (∃ cs, err = .overlap n.key cs) ∧ e.after = level ∧ level ≠ [] := by
  cases h with
  | fresh => cases he
  | replaced => cases he
  | refused _ not_admits =>
    cases he
    refine ⟨⟨_, rfl⟩, rfl, ?_⟩
    rintro rfl
    exact not_admits (admits_nil n)

theorem WellFormed.filter_ne_key {X Y : List (Interval f × V)} (h : level.WellFormed)
    (he : entries level = X ++ (k, v) :: Y) :
    ((entries level).filter fun e => decide (e.1 ≠ k)) = X ++ Y := by
  have hnodup := h.nodup_keys
  rw [keys, he, List.map_append, List.map_cons, List.nodup_middle, ← List.map_append] at hnodup
  have hne : ∀ e ∈ X ++ Y, decide (e.1 ≠ k) = true := by
    intro e hm
    refine decide_eq_true fun hk => (List.nodup_cons.mp hnodup).1 ?_
    exact List.mem_map.mpr ⟨e, hm, hk⟩
  obtain ⟨hX, hY⟩ := List.forall_mem_append.mp hne
  rw [he, List.filter_append, List.filter_cons_of_neg (by simp), List.filter_eq_self.mpr hX,
    List.filter_eq_self.mpr hY]

end Forest

namespace Node

open Forest

variable {n m : Node f V} {k : Interval f} {err : EditError (Interval f)}

theorem add_of_key_eq (h : n.key = m.key) :
    n.add m = ⟨.ok (some n.value), n.withValue m.value, []⟩ := by
  rw [add, addBy, if_pos h]

theorem add_of_contains (h : n.key.Contains m.key) (hne : n.key ≠ m.key) :
    n.add m = (n.forest.add m).map n.withForest := by
  rw [add, addBy, if_neg hne, if_pos h]

theorem add_of_not_contains (h : ¬ n.key.Contains m.key) :
    n.add m = ⟨.error (.outside n.key m.key), n, []⟩ := by
  have hne : n.key ≠ m.key := fun he => h (he ▸ .refl _)
  rw [add, addBy, if_neg hne, if_neg h]

theorem WellFormed.of_add_error (hn : n.WellFormed) (hm : m.WellFormed)
    (h : (n.add m).result = .error err) :
    (n.add m).after = n ∧ (n.key.Contains m.key → ∃ cs, err = .overlap m.key cs) := by
  by_cases hc : n.key.Contains m.key
  · by_cases hk : n.key = m.key
    · rw [add_of_key_eq hk] at h
      cases h
    · rw [add_of_contains hc hk] at h ⊢
      obtain ⟨hoverlap, hafter, hne⟩ := (add_added hm hn.forest).of_error h
      simp only [Edit.map, hafter, hn.withForest_forest hne]
      exact ⟨trivial, fun _ => hoverlap⟩
  · rw [add_of_not_contains hc]
    exact ⟨rfl, fun h => absurd h hc⟩

theorem WellFormed.add_eq_outside_iff (hn : n.WellFormed) (hm : m.WellFormed) :
    (n.add m).result = .error (.outside n.key m.key) ↔ ¬ n.key.Contains m.key := by
  constructor
  · intro h hc
    obtain ⟨cs, ho⟩ := (hn.of_add_error hm h).2 hc
    cases ho
  · intro h
    rw [add_of_not_contains h]

inductive Pruned (n : Node f V) (k : Interval f) : Edit (Interval f) V (Node f V) → Prop where
  | outside (not_contains : ¬ n.key.Contains k) : Pruned n k ⟨.error (.outside n.key k), n, []⟩
  | absent (contains : n.key.Contains k) (notMem : k ∉ Forest.keys n.forest) :
      Pruned n k ⟨.ok none, n, []⟩
  | found {after : Node f V} {events : List (Event (Interval f))} {v : V}
      (contains : n.key.Contains k) (mem : (k, v) ∈ Forest.entries n.forest)
      (key_eq : after.key = n.key) (value_eq : after.value = n.value)
      (after_eq : Forest.entries after.forest =
        (Forest.entries n.forest).filter fun e => decide (e.1 ≠ k)) :
      Pruned n k ⟨.ok (some v), after, events⟩

theorem WellFormed.remove_pruned (h : n.WellFormed) (k : Interval f) : Pruned n k (n.remove k) := by
  rw [Node.remove]
  split
  case isFalse hc => exact .outside hc
  case isTrue hc =>
    have hr := remove_removed (k := k) h.forest
    rw [removeBelow]
    generalize Forest.remove k n.forest = r at hr
    cases hr with
    | absent notMem =>
      simp only [Removal.map, Removal.toEdit, h.withRemaining_forest]
      exact .absent hc notMem
    | found entries_eq _ after_eq =>
      simp only [Removal.map, Removal.toEdit]
      refine .found hc ?_ (key_withRemaining ..) (value_withRemaining ..) ?_
      · rw [entries_eq]
        exact List.mem_append_right _ List.mem_cons_self
      · rw [forest_withRemaining, after_eq, h.forest.filter_ne_key entries_eq]

end Node

open Forest

/-- A node refuses a node or key that it does not contain, and nothing else from below it. What
is refused or absent leaves it unchanged, and a stored key is taken out alone. -/
theorem edits_below_node {n m : Node f V} (hn : n.Reachable) (hm : m.Reachable) (k : Interval f) :
    (((n.add m).result = .error (.outside n.key m.key) ↔ ¬ n.key.Contains m.key) ∧
      (n.key = m.key → n.add m = ⟨.ok (some n.value), n.withValue m.value, []⟩) ∧
      (n.key.Contains m.key → n.key ≠ m.key → n.add m = (n.forest.add m).map n.withForest) ∧
      ∀ err, (n.add m).result = .error err → (n.add m).after = n) ∧
    ((n.remove k).result = .error (.outside n.key k) ↔ ¬ n.key.Contains k) ∧
    ((n.remove k).result = .ok none ↔ n.key.Contains k ∧ (k = n.key ∨ k ∉ keys n.forest)) ∧
    (∀ v, (n.remove k).result = .ok (some v) ↔ (k, v) ∈ entries n.forest) ∧
    (∀ v, (n.remove k).result = .ok (some v) →
      (n.remove k).after.key = n.key ∧ (n.remove k).after.value = n.value ∧
      entries (n.remove k).after.forest =
        (entries n.forest).filter fun e => decide (e.1 ≠ k)) ∧
    ((∀ v, (n.remove k).result ≠ .ok (some v)) → (n.remove k).after = n) := by
  have hw := hn.wellFormed
  refine ⟨⟨hw.add_eq_outside_iff hm.wellFormed, Node.add_of_key_eq, Node.add_of_contains,
    fun err h => (hw.of_add_error hm.wellFormed h).1⟩, ?_⟩
  have hp := hw.remove_pruned k
  generalize n.remove k = e at hp
  cases hp with
  | outside not_contains =>
    have hmem (v) : (k, v) ∉ entries n.forest := fun hv =>
      not_contains (hw.inside_of_mem_keys (mem_keys_of_mem_entries hv)).1
    simp [not_contains, hmem]
  | absent contains notMem =>
    have hmem (v) : (k, v) ∉ entries n.forest := fun hv => notMem (mem_keys_of_mem_entries hv)
    simp [contains, notMem, hmem]
  | @found after events v contains mem key_eq value_eq after_eq =>
    have hkey := mem_keys_of_mem_entries mem
    have hne := (hw.inside_of_mem_keys hkey).2
    have hvalue (w) : v = w ↔ (k, w) ∈ entries n.forest := by
      constructor
      · rintro rfl
        exact mem
      · exact hw.forest.value_unique mem
    refine ⟨by simp [contains], by simp [hkey, hne], fun w => by simp [hvalue], ?_, ?_⟩
    · exact fun _ _ => ⟨key_eq, value_eq, after_eq⟩
    · exact fun h => absurd rfl (h v)

theorem edits_below_node_of_ends :
    let k := whole .v4
    let i := k.start
    let j := ofAddress k.lastAddress
    let n : Node .v4 Nat := .branch k 2 [⟨i, .leaf i 1⟩, ⟨j, .leaf j 3⟩]
    (n.add (.leaf i 4)).result = .ok (some 1) ∧
      ((Node.leaf i 5).add n).result = .error (.outside i k) ∧
      ((Node.leaf i 5).add n).after = .leaf i 5 ∧
      (n.remove k).result = .ok none ∧ (n.remove k).after = n ∧ (n.remove i).result = .ok (some 1) ∧
      entries (n.remove i).after.forest = [(j, 3)] := by
  intro k i j n
  have hn : n.Reachable := ((Node.Reachable.leaf k 2).add (.leaf i 1)).add (.leaf j 3)
  obtain ⟨⟨-, -, hinside, -⟩, -, -, hsome, hentries, -⟩ := edits_below_node hn (.leaf i 4) i
  obtain ⟨⟨houtside, -, -, herror⟩, -⟩ := edits_below_node (.leaf i 5) hn i
  obtain ⟨-, -, hnone, -, -, hsame⟩ := edits_below_node hn hn k
  have hremoved := (hsome 1).mpr (by decide)
  have hrefused := houtside.mpr (by decide)
  have hown := hnone.mpr ⟨.refl k, .inl rfl⟩
  refine ⟨?_, hrefused, herror _ hrefused, hown, hsame (by simp [hown]), hremoved, ?_⟩
  · rw [hinside (by decide) (by decide)]
    decide +kernel
  · rw [(hentries 1 hremoved).2.2]
    decide

end Netblock
