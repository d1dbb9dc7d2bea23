import Netblock.Proofs.Emptied
import Netblock.Proofs.Ordering

/-! # Cursors walk in order

A cursor answers one node a step. What it holds is a stack of levels, and what it will
answer is the walk of these, the innermost first. From the start that is the recursive walk
of the whole forest, in which the paths to the nodes ascend.
-/

namespace Netblock

variable {f : Family} {V : Type}

namespace Cursor

inductive Yields : Cursor f V → List (Node f V) → Prop where
  | done {c : Cursor f V} (h : c.next? = none) : Yields c []
  | step {c c' : Cursor f V} {n : Node f V} {ns : List (Node f V)} (h : c.next? = some (n, c'))
      (rest : Yields c' ns) : Yields c (n :: ns)

variable {c c' : Cursor f V} {n : Node f V} {ns : List (Node f V)}

theorem toList_of_next?_eq_none (h : c.next? = none) : c.toList = [] := by
  rw [toList]
  split
  case h_1 => rfl
  case h_2 h' => simp [next?, h'] at h

theorem toList_of_next?_eq_some (h : c.next? = some (n, c')) : c.toList = n :: c'.toList := by
  obtain ⟨⟨m, levels⟩, ha, he⟩ := Option.map_eq_some_iff.mp h
  obtain ⟨rfl, rfl⟩ : m = n ∧ ⟨levels⟩ = c' := by simpa using he
  rw [toList]
  split
  case h_1 h' => simp [h'] at ha
  case h_2 m' levels' h' =>
    obtain ⟨rfl, rfl⟩ : m' = m ∧ levels' = levels := by simpa [h'] using ha
    rfl

/-- The steps come to an end, and what they answer is what is left on the levels. -/
theorem yields_iff : c.Yields ns ↔ ns = c.toList := by
  constructor
  · intro h
    induction h with
    | done h => exact (toList_of_next?_eq_none h).symm
    | step h _ ih => rw [toList_of_next?_eq_some h, ih]
  · rintro rfl
    fun_induction toList c with
    | case1 c h => exact .done (by rw [next?, h, Option.map_none])
    | case2 c n levels h ih => exact .step (by rw [next?, h, Option.map_some]) ih

end Cursor

namespace Forest

variable {level : Forest f V} {n m : Node f V} {path : List Nat}

def nodesByEnd (level : Forest f V) : List (Node f V) :=
  (nodes level).mergeSort fun n m => decide (n.key.last ≤ m.key.last)

theorem mem_nodesByEnd_iff : n ∈ nodesByEnd level ↔ n ∈ nodes level := List.mem_mergeSort

theorem Ordered.nodesByEnd_eq (h : level.Ordered) : nodesByEnd level = nodes level := by
  refine List.mergeSort_of_pairwise (h.pairwise_nodes.imp fun hnm => ?_)
  exact decide_eq_true (Nat.le_of_lt hnm)

/-- The nodes of a level in the order of their ends, each followed by the walk of the level
below it. -/
def walk (level : Forest f V) : List (Node f V) :=
  (nodesByEnd level).attach.flatMap fun ⟨n, _⟩ => n :: walk n.forest
termination_by count level
decreasing_by exact count_forest_lt (mem_nodesByEnd_iff.mp ‹_›)

theorem walk_eq (level : Forest f V) :
    walk level = (nodesByEnd level).flatMap fun n => n :: walk n.forest := by
  rw [walk]
  simp

theorem Ordered.walk_eq_preorder (h : level.Ordered) : walk level = preorder level := by
  induction level using walk.induct with
  | case1 level ih =>
    rw [walk_eq, preorder_eq_flatMap, h.nodesByEnd_eq]
    refine List.flatMap_congr fun n hn => ?_
    rw [ih n (mem_nodesByEnd_iff.mpr hn) (h.of_mem_nodes hn).forest]

/-- A node stands at the end of a path: the ends of the nodes from the level down to it. -/
inductive LiesAt : Forest f V → List Nat → Node f V → Prop where
  | here {level : Forest f V} {n : Node f V} (hn : n ∈ nodes level) : LiesAt level [n.key.last] n
  | under {level : Forest f V} {m n : Node f V} {path : List Nat} (hm : m ∈ nodes level)
      (h : LiesAt m.forest path n) : LiesAt level (m.key.last :: path) n

theorem LiesAt.ne_nil (h : level.LiesAt path n) : path ≠ [] := by
  cases h <;> simp

end Forest

namespace Node

variable {n m : Node f V} {path : List Nat} {below : List (List Nat × Node f V)}

def pathsThrough (n : Node f V) (below : List (List Nat × Node f V)) :
    List (List Nat × Node f V) :=
  ([n.key.last], n) :: below.map fun r => (n.key.last :: r.1, r.2)

theorem map_snd_pathsThrough (n : Node f V) (below : List (List Nat × Node f V)) :
    (n.pathsThrough below).map Prod.snd = n :: below.map Prod.snd := by
  simp [pathsThrough]

theorem mem_pathsThrough_iff : (path, m) ∈ n.pathsThrough below ↔
    (path = [n.key.last] ∧ m = n) ∨ ∃ rest, (rest, m) ∈ below ∧ path = n.key.last :: rest := by
  simp [pathsThrough, eq_comm]

theorem exists_eq_cons_of_mem_pathsThrough (h : (path, m) ∈ n.pathsThrough below) :
    ∃ rest, path = n.key.last :: rest := by
  rcases mem_pathsThrough_iff.mp h with ⟨rfl, -⟩ | ⟨rest, -, rfl⟩
  · exact ⟨[], rfl⟩
  · exact ⟨rest, rfl⟩

theorem pairwise_pathsThrough (n : Node f V) (h : below.Pairwise fun r s => r.1 < s.1)
    (hne : ∀ r ∈ below, r.1 ≠ []) : (n.pathsThrough below).Pairwise fun r s => r.1 < s.1 := by
  refine List.pairwise_cons.mpr ⟨fun s hs => ?_, List.pairwise_map.mpr ?_⟩
  · obtain ⟨r, hr, rfl⟩ := List.mem_map.mp hs
    obtain ⟨x, rest, hx⟩ := List.exists_cons_of_ne_nil (hne r hr)
    rw [hx]
    exact List.cons_lt_cons_self.mpr (List.nil_lt_cons x rest)
  · exact h.imp List.cons_lt_cons_self.mpr

end Node

namespace Forest

variable {level : Forest f V} {n : Node f V} {path : List Nat}

/-- The nodes in preorder, each with its path. -/
def paths (level : Forest f V) : List (List Nat × Node f V) :=
  (nodes level).attach.flatMap fun ⟨n, _⟩ => n.pathsThrough (paths n.forest)
termination_by count level
decreasing_by exact count_forest_lt ‹_›

theorem paths_eq (level : Forest f V) :
    paths level = (nodes level).flatMap fun n => n.pathsThrough (paths n.forest) := by
  rw [paths]
  simp

theorem map_snd_paths (level : Forest f V) : (paths level).map Prod.snd = preorder level := by
  induction level using paths.induct with
  | case1 level ih =>
    rw [paths_eq, preorder_eq_flatMap, List.map_flatMap]
    refine List.flatMap_congr fun n hn => ?_
    rw [Node.map_snd_pathsThrough, ih n hn]

theorem mem_paths_iff : (path, n) ∈ paths level ↔ level.LiesAt path n := by
  induction level using paths.induct generalizing path with
  | case1 level ih =>
    rw [paths_eq, List.mem_flatMap]
    constructor
    · rintro ⟨m, hm, hp⟩
      rcases Node.mem_pathsThrough_iff.mp hp with ⟨rfl, rfl⟩ | ⟨rest, hr, rfl⟩
      · exact .here hm
      · exact .under hm ((ih m hm).mp hr)
    · intro h
      cases h with
      | here hn => exact ⟨n, hn, Node.mem_pathsThrough_iff.mpr (.inl ⟨rfl, rfl⟩)⟩
      | @under _ m _ rest hm h =>
        have hr := (ih m hm).mpr h
        exact ⟨m, hm, Node.mem_pathsThrough_iff.mpr (.inr ⟨rest, hr, rfl⟩)⟩

/-- A node and all below it come before the next sibling, which ends later. -/
theorem Ordered.pairwise_paths (h : level.Ordered) :
    (paths level).Pairwise fun r s => r.1 < s.1 := by
  induction level using paths.induct with
  | case1 level ih =>
    rw [paths_eq, List.pairwise_flatMap]
    constructor
    · intro n hn
      exact n.pairwise_pathsThrough (ih n hn (h.of_mem_nodes hn).forest)
        fun r hr => (mem_paths_iff.mp hr).ne_nil
    · refine h.pairwise_nodes.imp fun {n m} hnm => ?_
      rintro ⟨path, _⟩ hr ⟨path', _⟩ hs
      obtain ⟨rest, rfl⟩ := Node.exists_eq_cons_of_mem_pathsThrough hr
      obtain ⟨rest', rfl⟩ := Node.exists_eq_cons_of_mem_pathsThrough hs
      exact List.cons_lt_cons_iff.mpr (.inl hnm)

end Forest

/-- From the start of an ordered level the steps of a cursor come to an end, and they answer
its recursive walk: each node just once, in the ascending order of the paths. Edits leave
levels and nodes ordered, so cursors on these walk in the same way. -/
theorem cursor_yields_walk {level : Forest f V} (h : level.Ordered) :
    (∀ ns, (Cursor.ofForest level).Yields ns ↔ ns = level.walk) ∧
    (∀ children : Children f V, children.forest = level →
      ∀ ns, (Cursor.ofChildren children).Yields ns ↔ ns = level.walk) ∧
    (∃ rows : List (List Nat × Node f V), rows.map Prod.snd = level.walk ∧
      rows.Pairwise (fun r s => r.1 < s.1) ∧ ∀ path n, (path, n) ∈ rows ↔ level.LiesAt path n) ∧
    (∀ m : Node f V, m.Ordered → (level.add m).after.Ordered ∧
      ∀ n ∈ Forest.nodes level, (n.add m).after.Ordered) ∧
    ∀ k, (Forest.remove k level).after.Ordered ∧
      ∀ n ∈ Forest.nodes level, (n.remove k).after.Ordered := by
  have hwalk := h.walk_eq_preorder
  refine ⟨fun ns => ?_, ?_, ?_, fun m hm => ?_, fun k => ?_⟩
  · rw [Cursor.yields_iff, Cursor.toList_ofForest, hwalk]
  · rintro children rfl ns
    rw [Cursor.yields_iff, Children.toList_ofChildren, hwalk]
  · refine ⟨level.paths, ?_, h.pairwise_paths, fun path n => Forest.mem_paths_iff⟩
    rw [Forest.map_snd_paths, hwalk]
  · exact ⟨h.add hm, fun n hn => (h.of_mem_nodes hn).add hm⟩
  · exact ⟨h.remove k, fun n hn => (h.of_mem_nodes hn).remove k⟩

theorem cursor_yields_walk_of_emptied :
    let k := Interval.whole .v4
    let i := k.start
    let j := Interval.ofAddress k.lastAddress
    let n : Node .v4 Nat := .branch k 2 [⟨j, .branch j 3 []⟩]
    let level := (Forest.add [⟨i, .leaf i 1⟩] n).after
    let ns := [.branch k 2 [⟨i, .leaf i 1⟩, ⟨j, .branch j 3 []⟩], .leaf i 1, .branch j 3 []]
    level.Ordered ∧ (Cursor.ofForest level).Yields ns ∧
      (Cursor.ofChildren (some level)).Yields ns := by
  intro k i j n level ns
  have hemptied : (Node.branch j 3 []).Ordered := .branch ⟨by simp, .nil⟩ (by simp)
  have hn : n.Ordered := .withForest (.leaf k 2)
    (Forest.Ordered.cons_iff.mpr ⟨rfl, hemptied, .nil, by simp⟩)
  have hi : Forest.Ordered [⟨i, .leaf i 1⟩] :=
    Forest.Ordered.cons_iff.mpr ⟨rfl, .leaf i 1, .nil, by simp⟩
  have h : level.Ordered := hi.add hn
  obtain ⟨hforest, hchildren, -⟩ := cursor_yields_walk h
  have hns : ns = level.walk := by
    rw [h.walk_eq_preorder]
    decide +kernel
  exact ⟨h, (hforest ns).mpr hns, (hchildren (some level) rfl ns).mpr hns⟩

end Netblock
