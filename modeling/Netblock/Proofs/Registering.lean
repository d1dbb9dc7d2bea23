import Netblock.Proofs.Canonical
import Netblock.Proofs.Families

/-! # The entries of a registry

The entries of both maps as one list, and what an insertion does to them. Two registries with
the same entries are the same.
-/

namespace Netblock

variable {f : Family} {V : Type}

theorem IntervalMap.WellFormed.eq_of_mem_iff {m m' : IntervalMap f V} (h : m.WellFormed)
    (h' : m'.WellFormed) (hiff : ∀ e, e ∈ m.toList ↔ e ∈ m'.toList) : m = m' :=
  h.eq_of_perm h' ((List.perm_ext_iff_of_nodup h.nodup.of_map h'.nodup.of_map).mpr hiff)

namespace Registry

open IntervalMap

variable {r r' : Registry V} {b c : Block} {v w : V} {i k : Interval f} {m : IntervalMap f V}

def toList (r : Registry V) : List (Block × V) :=
  (r.v4.toList.map fun e => (⟨.v4, e.1⟩, e.2)) ++ r.v6.toList.map fun e => (⟨.v6, e.1⟩, e.2)

theorem mem_toList_iff : (⟨f, i⟩, v) ∈ r.toList ↔ (i, v) ∈ (r.map f).toList := by
  cases f <;> simp [toList, map]

theorem Reachable.size_eq_length (h : r.Reachable) : r.size = r.toList.length := by
  have h4 : r.v4.size = r.v4.toList.length := (h.map .v4).wellFormed.size_eq_length
  have h6 : r.v6.size = r.v6.toList.length := (h.map .v6).wellFormed.size_eq_length
  simp [size, toList, h4, h6]

theorem Reachable.eq_of_mem_iff (h : r.Reachable) (h' : r'.Reachable)
    (hiff : ∀ e, e ∈ r.toList ↔ e ∈ r'.toList) : r = r' := by
  refine ext_map fun f => (h.map f).wellFormed.eq_of_mem_iff (h'.map f).wellFormed ?_
  rintro ⟨i, v⟩
  rw [← mem_toList_iff, ← mem_toList_iff, hiff]

theorem Reachable.not_partlyOverlaps (h : r.Reachable) (hb : (b, v) ∈ r.toList)
    (hc : (c, w) ∈ r.toList) : ¬ b.PartlyOverlaps c := by
  obtain ⟨f, j⟩ := c
  rw [Block.partlyOverlaps_mk_iff]
  rintro ⟨i, rfl, hp⟩
  rw [mem_toList_iff, IntervalMap.toList_eq] at hb hc
  exact (h.map f).wellFormed.roots.not_partlyOverlaps (Forest.mem_keys_of_mem_entries hb)
    (Forest.mem_keys_of_mem_entries hc) hp

theorem Reachable.value_unique (h : r.Reachable) (hv : (b, v) ∈ r.toList)
    (hw : (b, w) ∈ r.toList) : v = w := by
  obtain ⟨f, k⟩ := b
  rw [mem_toList_iff, IntervalMap.toList_eq] at hv hw
  exact (h.map f).wellFormed.roots.value_unique hv hw

theorem size_setMap (r : Registry V) (m : IntervalMap f V) :
    (r.setMap f m).size + (r.map f).size = r.size + m.size := by
  cases f <;> simp only [size, setMap, map] <;> omega

def Nests (r : Registry V) (b : Block) : Prop := ∀ e ∈ r.toList, ¬ e.1.PartlyOverlaps b

/-- What the entries are once `b` has the value `v` and all other blocks have what they had. -/
def Sets (b : Block) (v : V) (r after : Registry V) : Prop :=
  ∀ c w, (c, w) ∈ after.toList ↔ if c = b then w = v else (c, w) ∈ r.toList

inductive Entered (r : Registry V) (b : Block) (v : V) : Edit Block V (Registry V) → Prop where
  | fresh {after : Registry V} {events : List (Event Block)} (notMem : ∀ w, (b, w) ∉ r.toList)
      (nests : r.Nests b) (sets : Sets b v r after) (size_eq : after.size = r.size + 1) :
      Entered r b v ⟨.ok none, after, events⟩
  | replaced {after : Registry V} {events : List (Event Block)} {old : V}
      (mem : (b, old) ∈ r.toList) (nests : r.Nests b) (sets : Sets b v r after)
      (size_eq : after.size = r.size) : Entered r b v ⟨.ok (some old), after, events⟩
  | refused {error : EditError Block} {events : List (Event Block)} (not_nests : ¬ r.Nests b) :
      Entered r b v ⟨.error error, r, events⟩

theorem nests_iff :
    r.Nests ⟨f, k⟩ ↔ ∀ i ∈ Forest.keys (r.map f).roots, ¬ i.PartlyOverlaps k := by
  simp only [Nests, Block.partlyOverlaps_mk_iff, Forest.keys, ← IntervalMap.toList_eq,
    List.mem_map]
  constructor
  · rintro h _ ⟨⟨i, v⟩, he, rfl⟩ hp
    exact h _ (mem_toList_iff.mpr he) ⟨i, rfl, hp⟩
  · rintro h ⟨_, v⟩ he ⟨i, rfl, hp⟩
    exact h i ⟨(i, v), mem_toList_iff.mp he, rfl⟩ hp

theorem sets_setMap {rest : List (Interval f × V)} (hr : Without (r.map f) k rest)
    (hm : ∀ e, e ∈ m.toList ↔ e = (k, v) ∨ e ∈ rest) : Sets ⟨f, k⟩ v r (r.setMap f m) := by
  rintro ⟨g, i⟩ w
  rw [mem_toList_iff, mem_toList_iff]
  by_cases hg : f = g
  · subst hg
    rw [map_setMap, hm, hr]
    by_cases hi : i = k <;> simp [hi]
  · rw [map_setMap_of_ne hg, if_neg]
    rintro ⟨⟩
    exact hg rfl

theorem insert_entered (h : r.Reachable) (b : Block) (v : V) : Entered r b v (r.insert b v) := by
  obtain ⟨f, k⟩ := b
  have hm := (h.map f).wellFormed
  have hi := insert_inserted hm k v
  rw [insert]
  generalize (r.map f).insert k v = e at hi
  cases hi with
  | @fresh after events notMem nests wellFormed perm =>
    have hsize := size_setMap r after
    have hlen := perm.length_eq
    rw [List.length_cons, ← wellFormed.size_eq_length, ← hm.size_eq_length] at hlen
    refine .fresh (fun w hw => notMem ?_) (nests_iff.mpr nests)
      (sets_setMap (.of_notMem notMem) fun e => ?_) ?_
    · rw [mem_toList_iff, IntervalMap.toList_eq] at hw
      exact Forest.mem_keys_of_mem_entries hw
    · rw [perm.mem_iff, List.mem_cons]
    · change (r.setMap f after).size = _
      omega
  | @replaced after events old X Y toList_eq wellFormed after_eq =>
    have hsize := size_setMap r after
    have hlen : after.size = (r.map f).size := by
      simp [wellFormed.size_eq_length, hm.size_eq_length, toList_eq, after_eq]
    have hmem : (k, old) ∈ (r.map f).toList := by simp [toList_eq]
    have hkey : k ∈ Forest.keys (r.map f).roots :=
      Forest.mem_keys_of_mem_entries (IntervalMap.toList_eq _ ▸ hmem)
    refine .replaced (mem_toList_iff.mpr hmem)
      (nests_iff.mpr fun i hi => hm.roots.not_partlyOverlaps hi hkey)
      (sets_setMap (.of_append hm toList_eq) fun e => ?_) ?_
    · rw [after_eq, List.perm_middle.mem_iff, List.mem_cons]
    · change (r.setMap f after).size = _
      omega
  | refused notMem overlaps =>
    simp only [Edit.map, setMap_map]
    exact .refused (by simpa [nests_iff] using overlaps)

end Registry

end Netblock
