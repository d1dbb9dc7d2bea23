import Netblock.Proofs.Families
import Netblock.Query

/-! # Independent families

An operation on a block is an operation of the map of its family, and only a clear is one of
both maps. So a registry is two maps side by side, each with its own part of a history. In
which order the operations of different families come makes no difference to any answer.
-/

namespace Netblock

variable {K L V σ : Type} {f : Family}

inductive Operation (K V : Type) where
  | insert (key : K) (value : V)
  | erase (key : K)
  | eraseValue (key : K) (value : V)
  | clear
  | query (q : Query) (key : K)
  deriving DecidableEq

inductive Answer (K V : Type) where
  | inserted (result : Except (EditError K) (Option V))
  | removed (value : Option V)
  | cleared
  | values (vs : List V)

def Answer.mapKeys (g : K → L) : Answer K V → Answer L V
  | inserted result => inserted (result.mapError (EditError.mapKeys g))
  | removed value => removed value
  | cleared => cleared
  | values vs => values vs

def Query.runMap (q : Query) (m : IntervalMap f V) (k : Interval f) : List V :=
  match q with
  | exact => (m.get? k).toList
  | firstLess => (m.firstLess? k).toList
  | exactOrFirstLess => (m.exactOrFirstLess? k).toList
  | allLess => m.allLess k
  | exactAndAllLess => m.exactAndAllLess k
  | firstMore => m.firstMore k
  | allMore => m.allMore k
  | exactAndAllMore => m.exactAndAllMore k

theorem Query.run_eq_runMap (q : Query) (r : Registry V) (b : Block) :
    q.run r b = q.runMap (r.map b.family) b.interval := by cases q <;> rfl

namespace Operation

def onMap [DecidableEq V] (m : IntervalMap f V) :
    Operation (Interval f) V → Answer (Interval f) V × IntervalMap f V
  | insert k v => (.inserted (m.insert k v).result, (m.insert k v).after)
  | erase k => (.removed (m.erase k).removed, (m.erase k).after)
  | eraseValue k v => (.removed (m.eraseValue k v).removed, (m.eraseValue k v).after)
  | clear => (.cleared, m.clear)
  | query q k => (.values (q.runMap m k), m)

def onRegistry [DecidableEq V] (r : Registry V) :
    Operation Block V → Answer Block V × Registry V
  | insert b v => (.inserted (r.insert b v).result, (r.insert b v).after)
  | erase b => (.removed (r.erase b).removed, (r.erase b).after)
  | eraseValue b v => (.removed (r.eraseValue b v).removed, (r.eraseValue b v).after)
  | clear => (.cleared, r.clear)
  | query q b => (.values (q.run r b), r)

def mapKeys (g : K → L) : Operation K V → Operation L V
  | insert k v => insert (g k) v
  | erase k => erase (g k)
  | eraseValue k v => eraseValue (g k) v
  | clear => clear
  | query q k => query q (g k)

/-- The operation as one of the map of this family, if it is one. -/
def ofFamily? (f : Family) : Operation Block V → Option (Operation (Interval f) V)
  | insert b v => (b.ofFamily? f).map fun k => insert k v
  | erase b => (b.ofFamily? f).map erase
  | eraseValue b v => (b.ofFamily? f).map fun k => eraseValue k v
  | clear => some clear
  | query q b => (b.ofFamily? f).map (query q)

def final (step : σ → Operation K V → Answer K V × σ) (s : σ) (ops : List (Operation K V)) : σ :=
  ops.foldl (fun s o => (step s o).2) s

theorem final_cons (step : σ → Operation K V → Answer K V × σ) (s : σ) (o : Operation K V)
    (ops : List (Operation K V)) : final step s (o :: ops) = final step (step s o).2 ops := rfl

def transcript (step : σ → Operation K V → Answer K V × σ) :
    σ → List (Operation K V) → List (Operation K V × Answer K V)
  | _, [] => []
  | s, o :: ops => (o, (step s o).1) :: transcript step (step s o).2 ops

/-- The part of a transcript of a registry that belongs to the map of a family. -/
def partOf (f : Family) (t : List (Operation Block V × Answer Block V)) :
    List (Operation (Interval f) V × Answer Block V) :=
  t.filterMap fun p => (p.1.ofFamily? f).map fun o => (o, p.2)

theorem eq_mapKeys_of_ofFamily? {o : Operation Block V} {o' : Operation (Interval f) V}
    (h : o.ofFamily? f = some o') : o = o'.mapKeys (Block.mk f) := by
  cases o with
  | clear =>
    obtain rfl := Option.some_inj.mp h
    rfl
  | insert | erase | eraseValue | query =>
    obtain ⟨k, hk, rfl⟩ := Option.map_eq_some_iff.mp h
    rw [Block.ofFamily?_eq_some_iff.mp hk]
    rfl

section Steps

variable [DecidableEq V] (r : Registry V)

theorem answer_of_ofFamily? {o : Operation Block V} {o' : Operation (Interval f) V}
    (h : o.ofFamily? f = some o') :
    (onRegistry r o).1 = (onMap (r.map f) o').1.mapKeys (Block.mk f) := by
  obtain rfl := eq_mapKeys_of_ofFamily? h
  cases o' with
  | query q k => exact congrArg Answer.values (q.run_eq_runMap r _)
  | _ => rfl

theorem map_of_ofFamily? {o : Operation Block V} {o' : Operation (Interval f) V}
    (h : o.ofFamily? f = some o') : (onRegistry r o).2.map f = (onMap (r.map f) o').2 := by
  obtain rfl := eq_mapKeys_of_ofFamily? h
  cases o' with
  | insert | erase | eraseValue => exact Registry.map_setMap ..
  | clear => cases f <;> rfl
  | query => rfl

theorem map_of_ofFamily?_eq_none {o : Operation Block V} (h : o.ofFamily? f = none) :
    (onRegistry r o).2.map f = r.map f := by
  cases o with
  | insert | erase | eraseValue =>
    have hne := Block.ofFamily?_eq_none_iff.mp (Option.map_eq_none_iff.mp h)
    exact Registry.map_setMap_of_ne hne ..
  | clear => cases h
  | query => rfl

end Steps

section Histories

variable [DecidableEq V] (r : Registry V) (ops : List (Operation Block V))

theorem final_map (f : Family) :
    (final onRegistry r ops).map f = final onMap (r.map f) (ops.filterMap (ofFamily? f)) := by
  induction ops generalizing r with
  | nil => rfl
  | cons o ops ih =>
    rw [final_cons, ih]
    cases ho : o.ofFamily? f with
    | none => rw [map_of_ofFamily?_eq_none r ho, List.filterMap_cons_none ho]
    | some o' => rw [map_of_ofFamily? r ho, List.filterMap_cons_some ho, final_cons]

theorem partOf_transcript (f : Family) :
    partOf f (transcript onRegistry r ops) =
      (transcript onMap (r.map f) (ops.filterMap (ofFamily? f))).map
        fun p => (p.1, p.2.mapKeys (Block.mk f)) := by
  induction ops generalizing r with
  | nil => rfl
  | cons o ops ih =>
    rw [transcript, partOf, List.filterMap_cons, ← partOf, ih]
    cases ho : o.ofFamily? f with
    | none => simp [map_of_ofFamily?_eq_none r ho, ho]
    | some o' => simp [map_of_ofFamily? r ho, answer_of_ofFamily? r ho, ho, transcript]

theorem reachable_final {r : Registry V} (h : r.Reachable) :
    (final onRegistry r ops).Reachable := by
  induction ops generalizing r with
  | nil => exact h
  | cons o ops ih =>
    refine ih ?_
    cases o with
    | insert b v => exact h.insert b v
    | erase b => exact h.erase b
    | eraseValue b v => exact h.eraseValue b v
    | clear => exact h.clear
    | query => exact h

end Histories

end Operation

theorem IntervalMap.WellFormed.isEmpty_iff {m : IntervalMap f V} (h : m.WellFormed) :
    m.isEmpty = true ↔ m.toList = [] := by
  rw [isEmpty, beq_iff_eq, h.size_eq_length, List.length_eq_zero_iff]

theorem Registry.isEmpty_iff {r : Registry V} :
    r.isEmpty = true ↔ ∀ f, (r.map f).isEmpty = true := by
  rw [isEmpty, Bool.and_eq_true]
  constructor
  · rintro ⟨h4, h6⟩ (_ | _)
    · exact h4
    · exact h6
  · intro h
    exact ⟨h .v4, h .v6⟩

open Operation

/-- A history of a registry is a history of each family's own map, with the same answers. What
is the same for each family makes the same registry, in whatever order the operations of
different families come. -/
theorem families_independent [DecidableEq V] (ops : List (Operation Block V)) :
    let r := final onRegistry .empty ops
    let own (f : Family) : IntervalMap f V := final onMap .empty (ops.filterMap (ofFamily? f))
    (∀ f, r.map f = own f) ∧
    (∀ f, partOf f (transcript onRegistry .empty ops) =
      (transcript onMap .empty (ops.filterMap (ofFamily? f))).map
        fun p => (p.1, p.2.mapKeys (Block.mk f))) ∧
    r.size = (own .v4).size + (own .v6).size ∧
    (r.isEmpty = true ↔ ∀ f, (own f).toList = []) ∧
    ∀ ops' : List (Operation Block V),
      (∀ f, ops.filterMap (ofFamily? f) = ops'.filterMap (ofFamily? f)) →
      r = final onRegistry .empty ops' ∧
      ∀ f, partOf f (transcript onRegistry .empty ops) =
        partOf f (transcript onRegistry .empty ops') := by
  intro r own
  have hown (f) : r.map f = own f := by
    rw [final_map, Registry.map_empty]
  refine ⟨hown, ?_, ?_, ?_, ?_⟩
  · intro f
    rw [partOf_transcript, Registry.map_empty]
  · rw [← hown, ← hown]
    rfl
  · rw [Registry.isEmpty_iff]
    refine forall_congr' fun f => ?_
    rw [← hown, ((reachable_final ops .empty).map f).wellFormed.isEmpty_iff]
  · intro ops' h
    refine ⟨Registry.ext_map fun f => ?_, fun f => ?_⟩
    · rw [final_map, final_map, h]
    · rw [partOf_transcript, partOf_transcript, h]

theorem families_independent_of_crossed_insertions :
    let k := Interval.whole .v4
    let i := Interval.whole .v6
    let ops : List (Operation Block Nat) :=
      [.insert ⟨.v4, k⟩ 1, .insert ⟨.v6, i⟩ 2, .clear, .insert ⟨.v6, i.start⟩ 3, .erase ⟨.v4, k⟩]
    let ops' : List (Operation Block Nat) :=
      [.insert ⟨.v6, i⟩ 2, .insert ⟨.v4, k⟩ 1, .clear, .erase ⟨.v4, k⟩, .insert ⟨.v6, i.start⟩ 3]
    (∀ f, ops.filterMap (ofFamily? f) = ops'.filterMap (ofFamily? f)) ∧
      final onRegistry .empty ops = final onRegistry .empty ops' := by
  intro k i ops ops'
  have h : ∀ f, ops.filterMap (ofFamily? f) = ops'.filterMap (ofFamily? f) := by
    rintro (_ | _) <;> rfl
  exact ⟨h, ((families_independent ops).2.2.2.2 ops' h).1⟩

end Netblock
