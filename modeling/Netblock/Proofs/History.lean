import Mathlib.Data.Finmap
import Netblock.Proofs.Reachable

/-! # A map is its entries

The edits of a map are run beside those of a finite partial function, which knows of no
nesting. After every history the entries of the two are the same, and so is every answer.
-/

namespace Netblock.IntervalMap

open Netblock.Interval Forest

variable {f : Family} {V : Type}

abbrev Reference (f : Family) (V : Type) := Finmap fun _ : Interval f => V

inductive Command (f : Family) (V : Type) where
  | insert (k : Interval f) (v : V)
  | erase (k : Interval f)
  | eraseValue (k : Interval f) (v : V)
  | clear

def Nests (M : Reference f V) (k : Interval f) : Prop := ∀ i ∈ M.keys, ¬ i.PartlyOverlaps k

instance (M : Reference f V) (k : Interval f) : Decidable (Nests M k) := by
  unfold Nests; infer_instance

namespace Command

/-- What a command answers of the function, where a refusal may name any conflicts. -/
def Answers [DecidableEq V] (M : Reference f V) :
    Command f V → Except (EditError (Interval f)) (Option V) → Prop
  | insert k _, r =>
    if Nests M k then r = .ok (M.lookup k) else ∃ cs, r = .error (.overlap k cs)
  | erase k, r => r = .ok (M.lookup k)
  | eraseValue k v, r => r = .ok (if M.lookup k = some v then some v else none)
  | clear, r => r = .ok none

def effect [DecidableEq V] (M : Reference f V) : Command f V → Reference f V
  | insert k v => if Nests M k then M.insert k v else M
  | erase k => M.erase k
  | eraseValue k v => if M.lookup k = some v then M.erase k else M
  | clear => ∅

/-- The command is refused, or what it would remove is not there. -/
def Idle (M : Reference f V) : Command f V → Prop
  | insert k _ => ¬ Nests M k
  | erase k => M.lookup k = none
  | eraseValue k v => M.lookup k ≠ some v
  | clear => False

def apply [DecidableEq V] (m : IntervalMap f V) :
    Command f V → Edit (Interval f) V (IntervalMap f V)
  | insert k v => m.insert k v
  | erase k => (m.erase k).toEdit
  | eraseValue k v => (m.eraseValue k v).toEdit
  | clear => ⟨.ok none, m.clear, []⟩

end Command

def history [DecidableEq V] (cs : List (Command f V)) : IntervalMap f V :=
  cs.foldl (fun m c => (c.apply m).after) empty

def reference [DecidableEq V] (cs : List (Command f V)) : Reference f V :=
  cs.foldl (fun M c => c.effect M) ∅

/-- The map lists the entries of the function, each once and in the order of their keys, and
counts them. -/
structure Represents (m : IntervalMap f V) (M : Reference f V) : Prop where
  sorted : m.toList.Pairwise fun a b => a.1.Precedes b.1
  mem_iff : ∀ k v, (k, v) ∈ m.toList ↔ M.lookup k = some v
  size_eq : m.size = M.keys.card

/-- An edit does to the map what the command does to the function, and answers the same. -/
structure Agrees [DecidableEq V] (c : Command f V) (m : IntervalMap f V) (M : Reference f V)
    (e : Edit (Interval f) V (IntervalMap f V)) : Prop where
  after : Represents e.after (c.effect M)
  answer : c.Answers M e.result
  idle : c.Idle M → e.after = m

variable {m after : IntervalMap f V} {M : Reference f V} {i k : Interval f} {v old : V}
  {X Y : List (Interval f × V)}

theorem Represents.of_wellFormed (h : m.WellFormed)
    (hM : ∀ k v, (k, v) ∈ m.toList ↔ M.lookup k = some v) : Represents m M := by
  refine ⟨h.sorted, hM, ?_⟩
  have hkeys : M.keys = (m.toList.map Prod.fst).toFinset := by
    ext i
    simp [Finmap.mem_keys, Finmap.mem_iff, hM]
  rw [h.size_eq_length, hkeys, List.toFinset_card_of_nodup h.nodup, List.length_map]

theorem Represents.mem_keys_iff (h : Represents m M) : i ∈ M.keys ↔ i ∈ keys m.roots := by
  rw [Finmap.mem_keys, Finmap.mem_iff, keys, ← toList_eq]
  simp [h.mem_iff]

theorem Represents.nests_iff (h : Represents m M) :
    Nests M k ↔ ∀ i ∈ keys m.roots, ¬ i.PartlyOverlaps k := by
  simp only [Nests, h.mem_keys_iff]

theorem Represents.lookup_eq_none (h : Represents m M) (hk : k ∉ keys m.roots) :
    M.lookup k = none := by
  rwa [Finmap.lookup_eq_none, ← Finmap.mem_keys, h.mem_keys_iff]

theorem Represents.empty : Represents (empty : IntervalMap f V) ∅ :=
  .of_wellFormed .empty (by simp [toList_eq, IntervalMap.empty])

def Without (m : IntervalMap f V) (k : Interval f) (rest : List (Interval f × V)) : Prop :=
  ∀ i w, (i, w) ∈ rest ↔ i ≠ k ∧ (i, w) ∈ m.toList

theorem Without.of_notMem (hk : k ∉ keys m.roots) : Without m k m.toList := by
  intro i w
  refine ⟨fun hi => ⟨?_, hi⟩, And.right⟩
  rintro rfl
  rw [toList_eq] at hi
  exact hk (mem_keys_of_mem_entries hi)

theorem Without.of_append (hm : m.WellFormed) (hl : m.toList = X ++ (k, old) :: Y) :
    Without m k (X ++ Y) := by
  have hp : m.toList.Perm ((k, old) :: (X ++ Y)) := hl ▸ List.perm_middle
  have hn : k ∉ (X ++ Y).map Prod.fst := (List.nodup_cons.mp ((hp.map _).nodup_iff.mp hm.nodup)).1
  intro i w
  rw [hp.mem_iff, List.mem_cons]
  constructor
  · intro hi
    refine ⟨?_, .inr hi⟩
    rintro rfl
    exact hn (List.mem_map_of_mem hi)
  · rintro ⟨hne, hi | hi⟩
    · exact absurd (congrArg Prod.fst hi) hne
    · exact hi

theorem Represents.insert {rest : List (Interval f × V)} (h : Represents m M)
    (hr : Without m k rest) (ha : after.WellFormed)
    (perm : after.toList.Perm ((k, v) :: rest)) : Represents after (M.insert k v) := by
  refine .of_wellFormed ha fun i w => ?_
  rw [perm.mem_iff, List.mem_cons, hr, h.mem_iff]
  by_cases hi : i = k
  · subst hi
    simp [eq_comm]
  · simp [Finmap.lookup_insert_of_ne _ hi, hi]

theorem Represents.erase {rest : List (Interval f × V)} (h : Represents m M)
    (hr : Without m k rest) (ha : after.WellFormed) (after_eq : after.toList = rest) :
    Represents after (M.erase k) := by
  refine .of_wellFormed ha fun i w => ?_
  rw [after_eq, hr, h.mem_iff]
  by_cases hi : i = k
  · subst hi
    simp
  · simp [Finmap.lookup_erase_ne hi, hi]

section Commands

variable [DecidableEq V]

theorem agrees_insert (hm : m.WellFormed) (h : Represents m M) (k : Interval f) (v : V) :
    Agrees (.insert k v) m M (m.insert k v) := by
  have hi := insert_inserted hm k v
  generalize m.insert k v = e at hi
  cases hi with
  | fresh notMem nests wellFormed perm =>
    have hn := h.nests_iff.mpr nests
    constructor
    · simpa [Command.effect, hn] using h.insert (.of_notMem notMem) wellFormed perm
    · simp [Command.Answers, hn, h.lookup_eq_none notMem]
    · simp [Command.Idle, hn]
  | @replaced after _ old X Y toList_eq' wellFormed after_eq =>
    have hk : (k, old) ∈ m.toList := by simp [toList_eq']
    have hkey : k ∈ keys m.roots := mem_keys_of_mem_entries (toList_eq m ▸ hk)
    have hn : Nests M k := h.nests_iff.mpr fun i hi => hm.roots.not_partlyOverlaps hi hkey
    have perm : after.toList.Perm ((k, v) :: (X ++ Y)) := after_eq ▸ List.perm_middle
    constructor
    · simpa [Command.effect, hn] using h.insert (.of_append hm toList_eq') wellFormed perm
    · simp [Command.Answers, hn, (h.mem_iff k old).mp hk]
    · simp [Command.Idle, hn]
  | refused notMem overlaps =>
    have hn : ¬ Nests M k := by simpa [h.nests_iff] using overlaps
    constructor
    · simpa [Command.effect, hn] using h
    · simp [Command.Answers, hn]
    · intro
      rfl

theorem agrees_erase (hm : m.WellFormed) (h : Represents m M) (k : Interval f) :
    Agrees (.erase k) m M (m.erase k).toEdit := by
  have he := erase_erased hm k
  generalize m.erase k = r at he
  cases he with
  | absent notMem =>
    have hn := h.lookup_eq_none notMem
    constructor
    · exact h.erase (.of_notMem notMem) hm rfl
    · simp [Command.Answers, Removal.toEdit, hn]
    · intro
      rfl
  | @found after _ v X Y toList_eq' wellFormed after_eq =>
    have hk : M.lookup k = some v := (h.mem_iff k v).mp (by simp [toList_eq'])
    constructor
    · exact h.erase (.of_append hm toList_eq') wellFormed after_eq
    · simp [Command.Answers, Removal.toEdit, hk]
    · simp [Command.Idle, hk]

theorem agrees_eraseValue (hm : m.WellFormed) (h : Represents m M) (k : Interval f) (v : V) :
    Agrees (.eraseValue k v) m M (m.eraseValue k v).toEdit := by
  have hg : m.get? k = some v ↔ M.lookup k = some v :=
    (get?_eq_some_iff hm).trans (h.mem_iff k v)
  rw [eraseValue]
  by_cases hv : M.lookup k = some v
  · obtain ⟨after, answer, -⟩ := agrees_erase hm h k
    rw [if_pos (hg.mpr hv)]
    constructor
    · simpa [Command.effect, hv] using after
    · simpa [Command.Answers, hv] using answer
    · intro hidle
      exact absurd hv hidle
  · rw [if_neg (hg.not.mpr hv)]
    constructor
    · simpa [Command.effect, Removal.toEdit, hv] using h
    · simp [Command.Answers, Removal.toEdit, hv]
    · intro
      rfl

theorem agrees_apply (hm : m.WellFormed) (h : Represents m M) (c : Command f V) :
    Agrees c m M (c.apply m) := by
  cases c with
  | insert k v => exact agrees_insert hm h k v
  | erase k => exact agrees_erase hm h k
  | eraseValue k v => exact agrees_eraseValue hm h k v
  | clear => exact ⟨.empty, rfl, False.elim⟩

theorem Reachable.apply (h : m.Reachable) (c : Command f V) : (c.apply m).after.Reachable := by
  cases c with
  | insert k v => exact h.insert k v
  | erase k => exact h.erase k
  | eraseValue k v => exact h.eraseValue k v
  | clear => exact h.clear

theorem reachable_history (cs : List (Command f V)) : (history cs).Reachable := by
  induction cs using List.reverseRecOn with
  | nil => exact .empty
  | append_singleton cs c ih => simpa [history] using ih.apply c

theorem represents_history (cs : List (Command f V)) : Represents (history cs) (reference cs) := by
  induction cs using List.reverseRecOn with
  | nil => exact .empty
  | append_singleton cs c ih =>
    simpa [history, reference] using (agrees_apply (reachable_history cs).wellFormed ih c).after

/-- Whatever the history, a map is the finite function of its entries, and the next command
does the same to both. -/
theorem history_refines_reference (cs : List (Command f V)) (c : Command f V) :
    Represents (history cs) (reference cs) ∧
      Agrees c (history cs) (reference cs) (c.apply (history cs)) :=
  ⟨represents_history cs, agrees_apply (reachable_history cs).wellFormed (represents_history cs) c⟩

end Commands

end Netblock.IntervalMap
