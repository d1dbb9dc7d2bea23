import Mathlib.Logic.Relation
import Netblock.Proofs.Reachable

/-! # The calls of an addition

An addition makes others, below the sibling around the node and for each sibling that moves
below it. All of them are of smaller and well-formed trees, so the bound on the depth of the
recursion is never met. None of them takes the slot of another node or loses one that it moves.
-/

namespace Netblock

open Netblock.Interval

variable {f : Family} {V : Type}

namespace Forest

/-- No sibling contains the key of the node or partly overlaps it, and those inside it nest with
the nodes that it brings along. -/
structure Clear (n : Node f V) (level : Forest f V) : Prop where
  outside : enclosing? n.key level = none
  apart : conflicts n.key level = []
  fits : misfit? n (contained n.key level) = none

/-- The labels of the siblings that an addition moves below the node. -/
def labelsInside (n : Node f V) (level : Forest f V) : List (Interval f) :=
  (contained n.key level).map Slot.label

/-- The additions that one step makes, where `add` is the way to add nodes to the levels below. -/
inductive Call (add : Adder f V) (n : Node f V) (level : Forest f V) :
    Node f V → Forest f V → Prop where
  | below {p : Node f V} (around : enclosing? n.key level = some p) (ne : p.key ≠ n.key) :
      Call add n level n p.forest
  | move {before after : List (Interval f)} {label : Interval f} {sibling : Node f V}
      {rest : Forest f V} (clear : Clear n level)
      (split : labelsInside n level = before ++ label :: after)
      (going : (absorb add before n level).refusal = none)
      (found : extract? label (absorb add before n level).remaining = some (sibling, rest)) :
      Call add n level sibling (absorb add before n level).node.forest

abbrev adder : Adder f V := fun n level => level.add n

section Congruence

variable {add add' : Adder f V} {n : Node f V} {level : Forest f V}

theorem absorb_append_labels {xs : List (Interval f)}
    (h : (absorb add xs n level).refusal = none) (ys : List (Interval f)) :
    absorb add (xs ++ ys) n level =
      let a := absorb add xs n level
      let b := absorb add ys a.node a.remaining
      { b with events := a.events ++ b.events } := by
  induction xs generalizing n level with
  | nil => simp [absorb]
  | cons label xs ih =>
    rw [absorb] at h
    rw [List.cons_append, absorb, absorb]
    cases hx : extract? label level with
    | none =>
      rw [hx] at h
      exact ih h
    | some found =>
      obtain ⟨sibling, rest⟩ := found
      rw [hx] at h
      dsimp only at h ⊢
      cases hr : (Node.addBy add sibling n).result with
      | error err =>
        rw [hr] at h
        cases h
      | ok old =>
        rw [hr] at h
        dsimp only at h ⊢
        rw [ih h]
        simp only [List.append_assoc]

theorem absorb_congr {before after : List (Interval f)} (clear : Clear n level)
    (h : ∀ m cs, Call add n level m cs → add m cs = add' m cs)
    (split : labelsInside n level = before ++ after)
    (going : (absorb add before n level).refusal = none) :
    absorb add after (absorb add before n level).node (absorb add before n level).remaining =
      absorb add' after (absorb add before n level).node
        (absorb add before n level).remaining := by
  -- The labels that are left get fewer, and those before them have been moved alike.
  induction after generalizing before with
  | nil => rfl
  | cons label after ih =>
    have hnext := absorb_append_labels going [label]
    have hcall (sibling : Node f V) (rest : Forest f V)
        (found : extract? label (absorb add before n level).remaining = some (sibling, rest)) :=
      h sibling _ (.move clear split going found)
    have ih := @ih (before ++ [label]) (by simpa using split)
    generalize absorb add before n level = a at hnext hcall ⊢
    simp only [absorb] at hnext ⊢
    cases hx : extract? label a.remaining with
    | none =>
      simp only [hx] at hnext ⊢
      rw [hnext] at ih
      exact ih rfl
    | some found =>
      obtain ⟨sibling, rest⟩ := found
      have hmove : Node.addBy add sibling a.node = Node.addBy add' sibling a.node := by
        simp only [Node.addBy, hcall sibling rest hx]
      simp only [hx, ← hmove] at hnext ⊢
      cases hr : (Node.addBy add sibling a.node).result with
      | error err => rfl
      | ok old =>
        simp only [hr] at hnext ⊢
        rw [hnext] at ih
        rw [ih rfl]

/-- A step of an addition depends on the additions that it calls, and on no other. -/
theorem addBy_congr (h : ∀ m cs, Call add n level m cs → add m cs = add' m cs) :
    addBy add n level = addBy add' n level := by
  cases he : enclosing? n.key level with
  | some p =>
    have hp : Node.addBy add n p = Node.addBy add' n p := by
      by_cases hk : p.key = n.key
      · simp only [Node.addBy, if_pos hk]
      · simp only [Node.addBy, h n p.forest (.below he hk)]
    simp only [addBy, he, hp]
  | none =>
    cases hc : conflicts n.key level with
    | cons c cs => simp only [addBy, he, hc]
    | nil =>
      cases hrun : contained n.key level with
      | nil => simp only [addBy, he, hc, hrun]
      | cons s run =>
        cases hm : misfit? n (s :: run) with
        | some k => simp only [addBy, he, hc, hrun, hm]
        | none =>
          have hlabels : labelsInside n level = [] ++ (s :: run).map Slot.label := by
            rw [labelsInside, hrun, List.nil_append]
          have hall : absorb add ((s :: run).map Slot.label) n level =
              absorb add' ((s :: run).map Slot.label) n level :=
            absorb_congr ⟨he, hc, hrun ▸ hm⟩ h hlabels rfl
          simp only [addBy, he, hc, hrun, hm, hall]

end Congruence

section Descent

variable {add : Adder f V} {n m : Node f V} {level cs : Forest f V}

/-- The moves below a node have come to the sibling in a slot, and it will be moved. -/
structure Due (add : Adder f V) (n : Node f V) (level : Forest f V) (label : Interval f)
    (a : Absorption f V) (sibling : Node f V) (rest : Forest f V) : Prop where
  going : a.refusal = none
  found : extract? label a.remaining = some (sibling, rest)
  key_eq : sibling.key = label
  moved : (Node.addBy add sibling a.node).result = .ok none
  wellFormed : sibling.WellFormed ∧ a.node.WellFormed
  count_lt : sibling.count + count a.node.forest < n.count + count level

theorem due_of_cut {A pre rest : Forest f V} {s : Slot f (Node f V)}
    (hadd : ∀ m cs, m.count + count cs < n.count + count (A ++ pre ++ s :: rest) →
      m.WellFormed → WellFormed cs → Insertion m cs (add m cs))
    (hn : n.WellFormed) (h : (A ++ pre ++ s :: rest).WellFormed)
    (hin : ∀ t ∈ pre ++ [s], n.key.Contains t.node.key ∧ t.node.key ≠ n.key)
    (hfit : Fits n (pre ++ [s])) :
    Due add n (A ++ pre ++ s :: rest) s.label
      (absorb add (pre.map Slot.label) n (A ++ pre ++ s :: rest)) s.node (A ++ rest) := by
  obtain ⟨hl, hs, hrest, hbefore, -⟩ := WellFormed.insert_iff.mp h
  have hrun : WellFormed (pre ++ [s]) := by
    have h : (A ++ (pre ++ [s]) ++ rest).WellFormed := by simpa using h
    exact h.of_cut
  have hcount : n.count + count pre + s.node.count ≤
      n.count + count (A ++ pre ++ s :: rest) := by
    simp only [count_eq_length, Node.count_eq_length, entries_append, entries_cons,
      List.length_append]
    omega
  obtain ⟨hpre, hin⟩ := List.forall_mem_append.mp hin
  obtain ⟨hc, hne⟩ := hin s List.mem_cons_self
  obtain ⟨p, events, habsorb, absorbed⟩ := absorb_append
    (fun m cs hm => hadd m cs (by omega)) hn h hpre fun i hi => hfit i (by simp [hi])
  have hlt : s.node.count + count p.forest < n.count + count (A ++ pre ++ s :: rest) := by
    have hp : count p.forest = count n.forest + count pre := by
      simpa only [count_eq_length, List.length_append] using absorbed.perm.length_eq
    rw [Node.count_eq n] at hcount ⊢
    omega
  have hmoved : (Node.addBy add s.node p).result = .ok none := by
    have hadded := (hadd s.node p.forest hlt hs absorbed.wellFormed.forest).added
      absorbed.wellFormed.forest hs
    obtain ⟨cs, later, he, -⟩ := hadded.of_fits (hfit.of_perm hrun absorbed.perm)
    rw [← absorbed.key_eq] at hc hne
    rw [Node.addBy, if_neg hne.symm, if_pos hc, he]
    rfl
  have hfound : extract? s.label (A ++ s :: rest) = some (s.node, A ++ rest) := by
    have hA := (WellFormed.append_iff.mp (WellFormed.append_iff.mp hrest).1).1
    refine extract?_append ?_ rfl
    rw [hl]
    exact hA.siblings.label_lt_last fun a ha => hbefore a (List.mem_append_left pre ha)
  rw [habsorb]
  exact ⟨rfl, hfound, hl.symm, hmoved, ⟨hs, absorbed.wellFormed⟩, hlt⟩

variable (hadd : ∀ m cs, m.count + count cs < n.count + count level → m.WellFormed →
  WellFormed cs → Insertion m cs (add m cs)) (hn : n.WellFormed) (h : level.WellFormed)
include hadd hn h

theorem Clear.exists_due (clear : Clear n level) {before after : List (Interval f)}
    {label : Interval f} (split : labelsInside n level = before ++ label :: after) :
    ∃ sibling rest, Due add n level label (absorb add before n level) sibling rest := by
  obtain ⟨A, B, hlevel, cut⟩ := h.exists_cutAround clear.outside clear.apart
  have hfit := (misfit?_eq_none_iff hn).mp clear.fits
  obtain ⟨pre, tail, hrun, rfl, htail⟩ := List.map_eq_append_iff.mp split
  obtain ⟨s, post, rfl, rfl, rfl⟩ := List.map_eq_cons_iff.mp htail
  have hsplit : pre ++ s :: post = pre ++ [s] ++ post := by simp
  rw [hrun, hsplit] at hlevel cut hfit
  obtain rfl : level = A ++ pre ++ s :: (post ++ B) := by simpa using hlevel
  refine ⟨s.node, A ++ (post ++ B), due_of_cut hadd hn h ?_ ?_⟩
  · exact fun t ht => cut.inside t (List.mem_append_left post ht)
  · exact fun i hi => hfit i (by rw [keys_append]; exact List.mem_append_left _ hi)

/-- A call is of well-formed trees with fewer nodes. -/
theorem Call.descends (hc : Call add n level m cs) :
    m.WellFormed ∧ cs.WellFormed ∧ m.count + count cs < n.count + count level := by
  cases hc with
  | @below p around =>
    obtain ⟨hp, -⟩ := h.cut_of_enclosing? around
    have hlt := count_forest_lt (mem_of_enclosing? around)
    exact ⟨hn, hp.forest, by omega⟩
  | move clear split _ found =>
    obtain ⟨sibling, rest, due⟩ := clear.exists_due hadd hn h split
    cases found.symm.trans due.found
    exact ⟨due.wellFormed.1, due.wellFormed.2.forest, due.count_lt⟩

end Descent

section Recursion

variable {n m p : Node f V} {level cs : Forest f V} {fuel fuel' : Nat}

theorem addWithin_congr (hf : n.count + count level ≤ fuel) (hf' : n.count + count level ≤ fuel')
    (hn : n.WellFormed) (h : level.WellFormed) :
    addWithin fuel n level = addWithin fuel' n level := by
  induction fuel generalizing fuel' n level with
  | zero =>
    rw [Node.count_eq] at hf
    omega
  | succ fuel ih =>
    cases fuel' with
    | zero =>
      rw [Node.count_eq] at hf'
      omega
    | succ fuel' =>
      refine addBy_congr fun m cs hc => ?_
      obtain ⟨hm, hcs, hlt⟩ := hc.descends (fun m cs hm => addWithin_insertion (by omega)) hn h
      exact ih (by omega) (by omega) hm hcs

/-- An addition is one step over additions. -/
theorem add_eq_addBy (hn : n.WellFormed) (h : level.WellFormed) :
    level.add n = addBy (fun n level => level.add n) n level := by
  obtain ⟨fuel, hfuel⟩ : ∃ fuel, n.count + count level = fuel + 1 :=
    ⟨count n.forest + count level, by rw [Node.count_eq, Nat.add_right_comm]⟩
  rw [add, hfuel]
  refine addBy_congr fun m cs hc => ?_
  obtain ⟨hm, hcs, hlt⟩ := hc.descends (fun m cs hm => addWithin_insertion (by omega)) hn h
  exact addWithin_congr (by omega) (Nat.le_refl _) hm hcs

theorem add_of_enclosing? (hn : n.WellFormed) (h : level.WellFormed)
    (he : enclosing? n.key level = some p) :
    level.add n = (p.add n).map fun p => replace n.key.first p level := by
  rw [add_eq_addBy hn h, addBy, he]
  rfl

theorem add_of_conflicts {c : Interval f} {cs : List (Interval f)} (hn : n.WellFormed)
    (h : level.WellFormed) (he : enclosing? n.key level = none)
    (hc : conflicts n.key level = c :: cs) :
    level.add n = ⟨.error (.overlap n.key (c :: cs)), level,
      [.refusedOverlap n.key (c :: cs)]⟩ := by
  simp only [add_eq_addBy hn h, addBy, he, hc]

end Recursion

section Slots

variable {n p : Node f V} {level A B : Forest f V}

/-- No slot of the level ends where the key of the node does. -/
def Vacant (n : Node f V) (level : Forest f V) : Prop := ∀ s ∈ level, s.label.last ≠ n.key.last

theorem place_of_vacant (h : Vacant n level) : (place n level).1 = none := by
  induction level with
  | nil => rfl
  | cons s level ih =>
    obtain ⟨hs, h⟩ := List.forall_mem_cons.mp h
    rw [place, if_neg (Ne.symm hs)]
    split
    · rfl
    · exact ih h

theorem vacant_append (hA : Siblings A) (hB : Siblings B)
    (before : ∀ a ∈ A, a.node.key.Before n.key) (after : ∀ b ∈ B, n.key.Before b.node.key) :
    Vacant n (A ++ B) :=
  List.forall_mem_append.mpr ⟨fun a ha => Nat.ne_of_lt (hA.label_lt_last before a ha),
    fun b hb => Nat.ne_of_gt (hB.last_lt_label after b hb)⟩

/-- An addition that passes the checks of its level moves each sibling that is inside the node,
and then finds the slot of the node free. -/
structure Undisturbed (n : Node f V) (level : Forest f V) : Prop where
  moves : ∀ before label after, labelsInside n level = before ++ label :: after →
    let a := absorb adder before n level
    a.refusal = none ∧ ∃ sibling rest, extract? label a.remaining = some (sibling, rest) ∧
      sibling.key = label ∧ (a.node.add sibling).result = .ok none
  settles : let a := absorb adder (labelsInside n level) n level
    a.refusal = none ∧ Vacant a.node a.remaining ∧
      place a.node a.remaining = (none, (level.add n).after) ∧ (level.add n).result = .ok none

theorem Clear.addBy_eq_settle {add : Adder f V} (clear : Clear n level)
    (h : (absorb add (labelsInside n level) n level).refusal = none) :
    addBy add n level =
      let a := absorb add (labelsInside n level) n level
      settle a.node a.remaining (if labelsInside n level = [] then []
        else .absorbing n.key (labelsInside n level).length :: a.events) := by
  obtain ⟨outside, apart, fits⟩ := clear
  rw [labelsInside] at h ⊢
  cases hrun : contained n.key level with
  | nil => simp [addBy, outside, apart, hrun, absorb]
  | cons s run =>
    rw [hrun] at h fits
    simp only [addBy, outside, apart, hrun, fits, h]
    simp

theorem Clear.undisturbed (clear : Clear n level) (hn : n.WellFormed) (h : level.WellFormed) :
    Undisturbed n level := by
  have hadd (m : Node f V) (cs : Forest f V) (hm : m.WellFormed) (hcs : WellFormed cs) :
      Insertion m cs (adder m cs) := add_insertion hm hcs
  constructor
  · intro before label after split
    obtain ⟨sibling, rest, due⟩ := clear.exists_due (fun m cs _ => hadd m cs) hn h split
    exact ⟨due.going, sibling, rest, due.found, due.key_eq, due.moved⟩
  · obtain ⟨A, B, hlevel, cut⟩ := h.exists_cutAround clear.outside clear.apart
    have hcut := hlevel ▸ h
    obtain ⟨hAr, hB, -⟩ := WellFormed.append_iff.mp hcut
    obtain ⟨hA, -, -⟩ := WellFormed.append_iff.mp hAr
    obtain ⟨p, events, habsorb, absorbed⟩ := absorb_append (fun m cs _ => hadd m cs) hn hcut
      cut.inside ((misfit?_eq_none_iff hn).mp clear.fits)
    rw [← hlevel, ← labelsInside] at habsorb
    have hsettle := clear.addBy_eq_settle (congrArg Absorption.refusal habsorb)
    have hvacant : Vacant p (A ++ B) := vacant_append hA.siblings hB.siblings
      (by simpa only [absorbed.key_eq] using cut.before)
      (by simpa only [absorbed.key_eq] using cut.after)
    have hplace : place p (A ++ B) = (none, (place p (A ++ B)).2) :=
      Prod.ext (place_of_vacant hvacant) rfl
    rw [habsorb] at hsettle
    dsimp only at hsettle
    rw [settle, hplace] at hsettle
    rw [add_eq_addBy hn h, hsettle, habsorb]
    exact ⟨rfl, hvacant, hplace, rfl⟩

end Slots

section Edits

variable {n p : Node f V} {k : Interval f} {level below : Forest f V} {a b : Node f V × Forest f V}

def Calls (a b : Node f V × Forest f V) : Prop := Call adder a.1 a.2 b.1 b.2

/-- A removal goes on below the sibling around its key. -/
def RemovalCalls (k : Interval f) (level below : Forest f V) : Prop :=
  ∃ n m, enclosing? k level = some n ∧ n.key ≠ k ∧ occupant? n.key level = some m ∧
    below = m.forest

theorem wellFormed_of_calls (hc : Relation.ReflTransGen Calls a b) (hn : a.1.WellFormed)
    (h : a.2.WellFormed) : b.1.WellFormed ∧ b.2.WellFormed := by
  induction hc with
  | refl => exact ⟨hn, h⟩
  | tail _ hc ih =>
    obtain ⟨hm, hcs, -⟩ := hc.descends (fun _ _ _ hm hcs => add_insertion hm hcs) ih.1 ih.2
    exact ⟨hm, hcs⟩

theorem wellFormed_of_removalCalls (hc : Relation.ReflTransGen (RemovalCalls k) level below)
    (h : level.WellFormed) : below.WellFormed := by
  induction hc with
  | refl => exact h
  | tail _ hc ih =>
    obtain ⟨n, m, -, -, hm, rfl⟩ := hc
    exact (ih.of_mem_nodes (mem_of_occupant? hm)).forest

/-- The children of a removed node find their slots free, one after the other. -/
theorem WellFormed.promote_vacant (h : level.WellFormed) (he : enclosing? p.key level = some p) :
    ∃ rest, extract? p.key level = some (p, rest) ∧
      ∀ before child after, Forest.nodes p.forest = before ++ child :: after →
        Vacant child (placeAll before rest) := by
  obtain ⟨-, A, B, rfl, -, -⟩ := h.cut_of_enclosing? he
  refine ⟨A ++ B, h.siblings.extract?_label, ?_⟩
  intro before child after split
  obtain ⟨pre, post', hforest, rfl, hpost⟩ := List.map_eq_append_iff.mp split
  obtain ⟨s, post, rfl, rfl, rfl⟩ := List.map_eq_cons_iff.mp hpost
  have hcut : WellFormed (A ++ pre ++ s :: (post ++ B)) := by
    simpa [hforest] using h.promote
  obtain ⟨-, -, hrest, hbefore, hafter⟩ := WellFormed.insert_iff.mp hcut
  obtain ⟨hApre, hpostB, hapart⟩ := WellFormed.append_iff.mp hrest
  obtain ⟨-, hB, -⟩ := WellFormed.append_iff.mp hpostB
  have hplaced : Siblings (A ++ pre ++ B) := Siblings.append_iff.mpr
    ⟨hApre.siblings, hB.siblings, fun a ha b hb => hapart a ha b (List.mem_append_right post hb)⟩
  have hall := placeAll_append hplaced
  rw [Forest.nodes] at hall
  rw [hall]
  exact vacant_append hApre.siblings hB.siblings hbefore fun b hb =>
    hafter b (List.mem_append_right post hb)

/-- The outcomes of an addition, which its calls alone decide: the node goes below the sibling
around it, or is refused and nothing changes, or finds its slot free. -/
structure AddsIntoFree (n : Node f V) (level : Forest f V) : Prop where
  calls : ∀ add : Adder f V, (∀ c, Calls (n, level) c → add c.1 c.2 = c.2.add c.1) →
    level.add n = addBy add n level
  below : ∀ p, enclosing? n.key level = some p →
    level.add n = (p.add n).map fun p => replace n.key.first p level
  refuses : enclosing? n.key level = none → ¬ Clear n level →
    ∃ err, (level.add n).result = .error err ∧ (level.add n).after = level
  settles : Clear n level → Undisturbed n level

/-- The outcomes of a removal: nothing changes, or it goes on below the sibling around the key, or
the children of the removed node are put beside its former siblings and find their slots free. -/
structure RemovesIntoFree (k : Interval f) (level : Forest f V) : Prop where
  outside : enclosing? k level = none → remove k level = ⟨none, level, []⟩
  below : ∀ p, enclosing? k level = some p → p.key ≠ k → RemovalCalls k level p.forest ∧
    remove k level = (remove k p.forest).map fun cs => replace p.key.last (p.withRemaining cs) level
  promotes : ∀ p, enclosing? k level = some p → p.key = k → ∃ rest,
    extract? k level = some (p, rest) ∧ (remove k level).removed = some p.value ∧
      (remove k level).after = placeAll (nodes p.forest) rest ∧
      ∀ before child after, nodes p.forest = before ++ child :: after →
        Vacant child (placeAll before rest) ∧ (place child (placeAll before rest)).1 = none

theorem add_of_not_clear (hn : n.WellFormed) (h : level.WellFormed)
    (he : enclosing? n.key level = none) (hc : ¬ Clear n level) :
    ∃ err, (level.add n).result = .error err ∧ (level.add n).after = level := by
  cases hapart : conflicts n.key level with
  | cons c cs =>
    rw [add_of_conflicts hn h he hapart]
    exact ⟨_, rfl, rfl⟩
  | nil =>
    cases hm : misfit? n (contained n.key level) with
    | none => exact absurd ⟨he, hapart, hm⟩ hc
    | some i =>
      cases hrun : contained n.key level with
      | nil =>
        rw [hrun] at hm
        cases hm
      | cons s run =>
        rw [hrun] at hm
        have hadd : level.add n =
            ⟨.error (.overlap n.key [i]), level, [.refusedSubtree n.key i]⟩ := by
          simp only [add_eq_addBy hn h, addBy, he, hapart, hrun, hm]
        rw [hadd]
        exact ⟨_, rfl, rfl⟩

theorem add_into_free (hn : n.WellFormed) (h : level.WellFormed) : AddsIntoFree n level where
  calls add hadd := by
    rw [add_eq_addBy hn h]
    exact addBy_congr fun m cs hc => (hadd (m, cs) hc).symm
  below _ he := add_of_enclosing? hn h he
  refuses := add_of_not_clear hn h
  settles clear := clear.undisturbed hn h

theorem promote_of_extract? {rest : Forest f V} (h : extract? k level = some (p, rest)) :
    (promote k level).removed = some p.value ∧
      (promote k level).after = placeAll (nodes p.forest) rest := by
  rw [promote, h]
  cases p with
  | leaf => exact ⟨rfl, rfl⟩
  | branch => exact ⟨rfl, rfl⟩

theorem remove_into_free (h : level.WellFormed) : RemovesIntoFree k level where
  outside := remove_of_none
  below p he hk := by
    obtain ⟨hp, hremove⟩ := remove_of_around h he hk
    exact ⟨⟨p, p, he, hk, hp, rfl⟩, hremove⟩
  promotes p he hk := by
    subst hk
    obtain ⟨rest, hfound, hvacant⟩ := h.promote_vacant he
    rw [remove_of_key he rfl]
    obtain ⟨hvalue, hafter⟩ := promote_of_extract? hfound
    refine ⟨rest, hfound, hvalue, hafter, fun before child after split => ?_⟩
    have hv := hvacant before child after split
    exact ⟨hv, place_of_vacant hv⟩

/-- In all additions that an addition makes, the moves succeed and the slot of the node is free.
In all removals that a removal makes, the children of the removed node find their slots free. -/
theorem edits_take_free_slots (h : level.Reachable) (hn : n.Reachable) (k : Interval f) :
    (∀ c, Relation.ReflTransGen Calls (n, level) c → AddsIntoFree c.1 c.2) ∧
      ∀ cs, Relation.ReflTransGen (RemovalCalls k) level cs → RemovesIntoFree k cs := by
  constructor
  · intro c hc
    obtain ⟨hm, hcs⟩ := wellFormed_of_calls hc hn.wellFormed h.wellFormed
    exact add_into_free hm hcs
  · intro cs hc
    exact remove_into_free (wellFormed_of_removalCalls hc h.wellFormed)

theorem edits_take_free_slots_below_whole :
    let k := whole .v4
    let i : Interval .v4 := ⟨1, 1, by decide, by decide⟩
    let j : Interval .v4 := ⟨3, 3, by decide, by decide⟩
    let q : Interval .v4 := ⟨6, 9, by decide, by decide⟩
    let r : Interval .v4 := ⟨6, 6, by decide, by decide⟩
    let s : Interval .v4 := ⟨9, 9, by decide, by decide⟩
    let removed : Node .v4 Nat := .branch q 7 [⟨r, .leaf r 6⟩, ⟨s, .leaf s 9⟩]
    let below : Forest .v4 Nat := [⟨i, .leaf i 1⟩, ⟨j, .leaf j 3⟩, ⟨q, removed⟩]
    let level : Forest .v4 Nat := [⟨k, .branch k 0 below⟩]
    let l : Interval .v4 := ⟨1, 4, by decide, by decide⟩
    let m : Interval .v4 := ⟨2, 2, by decide, by decide⟩
    let n : Node .v4 Nat := .branch l 4 [⟨m, .leaf m 2⟩]
    (Clear n below ∧ labelsInside n below = [i, j] ∧ Undisturbed n below) ∧
      extract? q below = some (removed, [⟨i, .leaf i 1⟩, ⟨j, .leaf j 3⟩]) ∧
      Vacant (.leaf s 9) (placeAll [.leaf r 6] [⟨i, .leaf i 1⟩, ⟨j, .leaf j 3⟩]) ∧
      (remove q level).removed = some 7 ∧
      (remove q level).after = [⟨k, .branch k 0
        [⟨i, .leaf i 1⟩, ⟨j, .leaf j 3⟩, ⟨r, .leaf r 6⟩, ⟨s, .leaf s 9⟩]⟩] := by
  intro k i j q r s removed below level l m n
  have hn : n.Reachable := (Node.Reachable.leaf l 4).add (.leaf m 2)
  have hremoved : removed.Reachable := ((Node.Reachable.leaf q 7).add (.leaf r 6)).add (.leaf s 9)
  have hbelow : below.Reachable := by
    have he : (Forest.add [⟨i, .leaf i 1⟩, ⟨j, .leaf j 3⟩] removed).after = below := by
      decide +kernel
    exact he ▸ ((Forest.Reachable.empty.add (.leaf i 1)).add (.leaf j 3)).add hremoved
  have hl : level.Reachable := by
    have he : (below.add (.leaf k 0)).after = level := by decide +kernel
    exact he ▸ hbelow.add (.leaf k 0)
  have hcall : Calls (n, level) (n, below) := .below (p := .branch k 0 below) (by decide) (by decide)
  have clear : Clear n below := ⟨by decide, by decide, by decide +kernel⟩
  obtain ⟨hadd, hremove⟩ := edits_take_free_slots hl hn q
  obtain ⟨hcalls, hlevel⟩ := (hremove level .refl).below (.branch k 0 below) (by decide) (by decide)
  obtain ⟨rest, hfound, hvalue, hafter, hvacant⟩ :=
    (hremove below (.single hcalls)).promotes removed (by decide) rfl
  obtain rfl : [⟨i, .leaf i 1⟩, ⟨j, .leaf j 3⟩] = rest := by
    have he : extract? q below = some (removed, [⟨i, .leaf i 1⟩, ⟨j, .leaf j 3⟩]) := by decide
    exact congrArg Prod.snd (Option.some.inj (he.symm.trans hfound))
  refine ⟨⟨clear, by decide, (hadd (n, below) (.single hcall)).settles clear⟩, hfound,
    (hvacant [.leaf r 6] (.leaf s 9) [] rfl).1, ?_, ?_⟩
  · rw [hlevel]
    exact hvalue
  · rw [hlevel, Removal.map, Node.forest, hafter]
    decide

end Edits

end Forest
end Netblock
