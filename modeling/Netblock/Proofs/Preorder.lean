import Netblock.Forest.Cursor

/-! # The walk of a forest

The entries and keys of a forest in preorder, with their equations, and the steps of a
cursor: a cursor on a forest lists the walk.
-/

namespace Netblock

variable {f : Family} {V : Type}

def Node.entries (n : Node f V) : List (Interval f × V) :=
  (n.key, n.value) :: Forest.entries n.forest

def Forest.keys (level : Forest f V) : List (Interval f) := (Forest.entries level).map Prod.fst

def Node.keys (n : Node f V) : List (Interval f) := n.key :: Forest.keys n.forest

theorem Node.preorder_eq (n : Node f V) : n.preorder = n :: Forest.preorder n.forest := by
  cases n <;> simp [Node.preorder, Node.forest, Forest.preorder]

theorem Node.keys_eq (n : Node f V) : n.keys = n.entries.map Prod.fst := rfl

theorem Node.key_mem_keys (n : Node f V) : n.key ∈ n.keys := List.mem_cons_self

namespace Forest

@[simp] theorem preorder_nil : preorder ([] : Forest f V) = [] := by simp [preorder]

@[simp] theorem preorder_cons (s : Slot f (Node f V)) (rest : Forest f V) :
    preorder (s :: rest) = s.node.preorder ++ preorder rest := by
  obtain ⟨label, n⟩ := s
  simp [preorder]

@[simp] theorem preorder_append (A B : Forest f V) :
    preorder (A ++ B) = preorder A ++ preorder B := by
  induction A with
  | nil => simp
  | cons s A ih => simp [ih]

theorem preorder_eq_flatMap (level : Forest f V) :
    preorder level = (nodes level).flatMap fun n => n :: preorder n.forest := by
  induction level with
  | nil => simp [nodes]
  | cons s level ih => simp [nodes, ih, Node.preorder_eq, List.flatMap_map]

@[simp] theorem entries_nil : entries ([] : Forest f V) = [] := by simp [entries]

@[simp] theorem entries_cons (s : Slot f (Node f V)) (rest : Forest f V) :
    entries (s :: rest) = s.node.entries ++ entries rest := by
  simp [entries, Node.entries, Node.preorder_eq]

@[simp] theorem entries_append (A B : Forest f V) :
    entries (A ++ B) = entries A ++ entries B := by
  simp [entries]

@[simp] theorem keys_nil : keys ([] : Forest f V) = [] := by simp [keys]

@[simp] theorem keys_cons (s : Slot f (Node f V)) (rest : Forest f V) :
    keys (s :: rest) = s.node.keys ++ keys rest := by
  simp [keys, Node.keys, Node.entries]

@[simp] theorem keys_append (A B : Forest f V) : keys (A ++ B) = keys A ++ keys B := by
  simp [keys]

theorem map_key_preorder (level : Forest f V) : (preorder level).map Node.key = keys level := by
  simp [keys, entries]

theorem mem_preorder_iff {n : Node f V} {level : Forest f V} :
    n ∈ preorder level ↔ ∃ s ∈ level, n ∈ s.node.preorder := by
  induction level with
  | nil => simp
  | cons s level ih => simp [ih]

theorem mem_keys_iff {i : Interval f} {level : Forest f V} :
    i ∈ keys level ↔ ∃ s ∈ level, i ∈ s.node.keys := by
  induction level with
  | nil => simp
  | cons s level ih => simp [ih]

theorem key_mem_keys {s : Slot f (Node f V)} {level : Forest f V} (h : s ∈ level) :
    s.node.key ∈ keys level :=
  mem_keys_iff.mpr ⟨s, h, s.node.key_mem_keys⟩

theorem mem_keys_of_mem_entries {e : Interval f × V} {level : Forest f V}
    (h : e ∈ entries level) : e.1 ∈ keys level := List.mem_map_of_mem h

end Forest

mutual

theorem Node.count_eq_length : ∀ n : Node f V, n.count = n.entries.length
  | .leaf k v => by simp [Node.count, Node.entries, Node.forest]
  | .branch k v cs => by
      have := Forest.count_eq_length cs
      simp [Node.count, Node.entries, Node.forest, this]

theorem Forest.count_eq_length :
    ∀ level : Forest f V, Forest.count level = (Forest.entries level).length
  | [] => by simp
  | ⟨label, n⟩ :: rest => by
      have := Node.count_eq_length n
      have := Forest.count_eq_length rest
      simp [*]

end

namespace Cursor

theorem advance_eq_none_iff {levels : List (Forest f V)} :
    advance levels = none ↔ ∀ level ∈ levels, level = [] := by
  induction levels with
  | nil => simp [advance]
  | cons level levels ih => cases level <;> simp [advance, ih]

theorem flatMap_preorder_of_advance {levels outer : List (Forest f V)} {n : Node f V}
    (h : advance levels = some (n, outer)) :
    levels.flatMap Forest.preorder = n :: outer.flatMap Forest.preorder := by
  induction levels with
  | nil => simp [advance] at h
  | cons level levels ih =>
    cases level with
    | nil => simpa using ih h
    | cons s rest =>
      simp only [advance, Option.some.injEq, Prod.mk.injEq] at h
      obtain ⟨rfl, rfl⟩ := h
      have hc : s.node.children?.toList.flatMap Forest.preorder =
          Forest.preorder s.node.forest := by
        cases s.node <;> simp [Node.children?, Node.forest]
      simp [Node.preorder_eq, hc]

/-- What is left on the levels of a cursor is listed level by level, each in preorder. -/
theorem toList_eq (c : Cursor f V) : c.toList = c.levels.flatMap Forest.preorder := by
  fun_induction toList c with
  | case1 c h =>
    have hnil : ∀ level ∈ c.levels, Forest.preorder level = [] := by
      intro level hl
      rw [advance_eq_none_iff.mp h level hl, Forest.preorder_nil]
    exact (List.flatMap_eq_nil_iff.mpr hnil).symm
  | case2 c n levels h ih => rw [flatMap_preorder_of_advance h, ih]

theorem toList_ofForest (level : Forest f V) : (ofForest level).toList = Forest.preorder level := by
  simp [toList_eq, ofForest]

end Cursor

end Netblock
