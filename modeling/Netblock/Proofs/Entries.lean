import Netblock.IntervalMap
import Netblock.Proofs.Adding
import Netblock.Proofs.Locating
import Netblock.Proofs.Removing

/-! # The entries of a map

What the edits of a map do to the list of its entries. The size counts them, and a lookup
answers the one entry of a key.
-/

namespace Netblock.IntervalMap

open Netblock.Interval Forest

variable {f : Family} {V : Type} {m : IntervalMap f V} {k : Interval f} {v : V}

structure WellFormed (m : IntervalMap f V) : Prop where
  roots : m.roots.WellFormed
  size_eq : m.size = m.roots.count

theorem toList_eq (m : IntervalMap f V) : m.toList = entries m.roots := by
  rw [toList, Cursor.toList_ofForest, entries]

theorem WellFormed.empty : (empty : IntervalMap f V).WellFormed :=
  ⟨.nil, by simp [IntervalMap.empty]⟩

theorem WellFormed.size_eq_length (h : m.WellFormed) : m.size = m.toList.length := by
  rw [h.size_eq, count_eq_length, toList_eq]

theorem WellFormed.sorted (h : m.WellFormed) :
    m.toList.Pairwise fun a b => a.1.Precedes b.1 := by
  rw [toList_eq]
  exact List.pairwise_map.mp h.roots.pairwise_precedes

theorem WellFormed.nodup (h : m.WellFormed) : (m.toList.map Prod.fst).Nodup := by
  rw [toList_eq]
  exact h.roots.nodup_keys

inductive Inserted (m : IntervalMap f V) (k : Interval f) (v : V) :
    Edit (Interval f) V (IntervalMap f V) → Prop where
  | fresh {after : IntervalMap f V} {events : List (Event (Interval f))}
      (notMem : k ∉ keys m.roots) (nests : ∀ i ∈ keys m.roots, ¬ i.PartlyOverlaps k)
      (wellFormed : after.WellFormed) (perm : after.toList.Perm ((k, v) :: m.toList)) :
      Inserted m k v ⟨.ok none, after, events⟩
  | replaced {after : IntervalMap f V} {events : List (Event (Interval f))} {old : V}
      {X Y : List (Interval f × V)} (toList_eq : m.toList = X ++ (k, old) :: Y)
      (wellFormed : after.WellFormed) (after_eq : after.toList = X ++ (k, v) :: Y) :
      Inserted m k v ⟨.ok (some old), after, events⟩
  | refused {cs : List (Interval f)} {events : List (Event (Interval f))}
      (notMem : k ∉ keys m.roots) (overlaps : ∃ i ∈ keys m.roots, i.PartlyOverlaps k) :
      Inserted m k v ⟨.error (.overlap k cs), m, events⟩

theorem admits_leaf_iff {level : Forest f V} :
    Admits level (.leaf k v) ↔ ∀ i ∈ keys level, ¬ i.PartlyOverlaps k := by
  simp [Admits, Node.forest, Node.key]

theorem insert_inserted (h : m.WellFormed) (k : Interval f) (v : V) :
    Inserted m k v (m.insert k v) := by
  have ha := add_added (.leaf k v) h.roots
  rw [insert]
  generalize m.roots.add (.leaf k v) = e at ha
  cases ha with
  | @fresh after events notMem admits wellFormed perm =>
    have hp : (entries after).Perm ((k, v) :: m.toList) := by
      simpa [Node.entries, Node.forest, Node.key, Node.value, toList_eq] using perm
    refine .fresh notMem (admits_leaf_iff.mp admits) ⟨wellFormed, ?_⟩ (by rwa [toList_eq])
    simp [count_eq_length, hp.length_eq, h.size_eq_length]
  | @replaced after events old X Y entries_eq wellFormed after_eq =>
    refine .replaced (by rwa [toList_eq]) ⟨wellFormed, ?_⟩ (by rwa [toList_eq])
    simp [count_eq_length, after_eq, h.size_eq, entries_eq]
  | refused notMem not_admits =>
    refine .refused notMem ?_
    simpa [admits_leaf_iff] using not_admits

inductive Erased (m : IntervalMap f V) (k : Interval f) :
    Removal (Interval f) V (IntervalMap f V) → Prop where
  | absent (notMem : k ∉ keys m.roots) : Erased m k ⟨none, m, []⟩
  | found {after : IntervalMap f V} {events : List (Event (Interval f))} {v : V}
      {X Y : List (Interval f × V)} (toList_eq : m.toList = X ++ (k, v) :: Y)
      (wellFormed : after.WellFormed) (after_eq : after.toList = X ++ Y) :
      Erased m k ⟨some v, after, events⟩

theorem erase_erased (h : m.WellFormed) (k : Interval f) : Erased m k (m.erase k) := by
  have hr := remove_removed (k := k) h.roots
  rw [erase]
  generalize Forest.remove k m.roots = r at hr
  cases hr with
  | absent notMem => exact .absent notMem
  | @found after events v X Y entries_eq wellFormed after_eq =>
    refine .found (by rwa [toList_eq]) ⟨wellFormed, ?_⟩ (by rwa [toList_eq])
    simp [count_eq_length, after_eq, h.size_eq, entries_eq]

theorem Inserted.wellFormed {e : Edit (Interval f) V (IntervalMap f V)} (h : Inserted m k v e)
    (hm : m.WellFormed) : e.after.WellFormed := by
  cases h with
  | fresh _ _ wellFormed _ => exact wellFormed
  | replaced _ wellFormed _ => exact wellFormed
  | refused => exact hm

theorem Erased.wellFormed {r : Removal (Interval f) V (IntervalMap f V)} (h : Erased m k r)
    (hm : m.WellFormed) : r.after.WellFormed := by
  cases h with
  | absent => exact hm
  | found _ wellFormed _ => exact wellFormed

theorem get?_eq_some_iff (h : m.WellFormed) : m.get? k = some v ↔ (k, v) ∈ m.toList := by
  rw [toList_eq]
  constructor
  · intro hg
    obtain ⟨n, hn, rfl⟩ := Option.map_eq_some_iff.mp hg
    obtain ⟨hn, hk⟩ := Option.filter_eq_some_iff.mp hn
    obtain rfl := of_decide_eq_true hk
    exact mem_entries_of_mem_preorder (innermost_of_nearest? h.roots hn).mem
  · intro hv
    obtain ⟨n, hn, rfl⟩ := exists_nearest? h.roots (mem_keys_of_mem_entries hv)
    have hm := mem_entries_of_mem_preorder (innermost_of_nearest? h.roots hn).mem
    rw [h.roots.value_unique hv hm]
    simp [get?, nearest?, hn]

end Netblock.IntervalMap
