import Netblock.Interval

/-! # Nested, apart or overlapping

Two intervals stand in one of five relations: one ends before the other starts, one
contains the other, or they partly overlap. The order of intervals puts an interval after
those that contain it and after those that end before it.
-/

namespace Netblock.Interval

variable {f : Family} {i j k : Interval f}

/-- `i` ends before `j` starts. -/
def Before (i j : Interval f) : Prop := i.last < j.first

theorem Contains.refl (i : Interval f) : i.Contains i := ⟨Nat.le_refl _, Nat.le_refl _⟩

theorem Contains.trans (h : i.Contains j) (h' : j.Contains k) : i.Contains k :=
  ⟨Nat.le_trans h.1 h'.1, Nat.le_trans h'.2 h.2⟩

theorem Contains.antisymm (h : i.Contains j) (h' : j.Contains i) : i = j :=
  Interval.ext (Nat.le_antisymm h.1 h'.1) (Nat.le_antisymm h'.2 h.2)

theorem Contains.intersects (h : i.Contains j) : i.Intersects j :=
  ⟨Nat.le_trans h.1 j.first_le_last, Nat.le_trans j.first_le_last h.2⟩

theorem Intersects.symm (h : i.Intersects j) : j.Intersects i := ⟨h.2, h.1⟩

theorem PartlyOverlaps.symm (h : i.PartlyOverlaps j) : j.PartlyOverlaps i :=
  ⟨h.1.symm, h.2.2, h.2.1⟩

theorem not_partlyOverlaps_self (i : Interval f) : ¬ i.PartlyOverlaps i := fun h => h.2.1 (.refl i)

theorem Intersects.of_contains (h : i.Intersects j) (hk : k.Contains i) : k.Intersects j :=
  ⟨Nat.le_trans hk.1 h.1, Nat.le_trans h.2 hk.2⟩

theorem Contains.intersects_of_contains (hi : i.Contains k) (hj : j.Contains k) :
    i.Intersects j :=
  hj.intersects.symm.of_contains hi

theorem not_intersects_iff : ¬ i.Intersects j ↔ i.Before j ∨ j.Before i := by
  unfold Intersects Before; omega

theorem Before.not_intersects (h : i.Before j) : ¬ i.Intersects j :=
  not_intersects_iff.mpr (.inl h)

theorem Before.not_contains (h : i.Before j) : ¬ i.Contains j :=
  fun hc => h.not_intersects hc.intersects

theorem Before.not_contains' (h : i.Before j) : ¬ j.Contains i :=
  fun hc => h.not_intersects hc.intersects.symm

theorem Before.not_partlyOverlaps (h : i.Before j) : ¬ i.PartlyOverlaps j :=
  fun hp => h.not_intersects hp.1

theorem Before.ne (h : i.Before j) : i ≠ j := by
  rintro rfl
  exact h.not_contains (.refl i)

theorem Before.trans (h : i.Before j) (h' : j.Before k) : i.Before k := by
  have := j.first_le_last
  unfold Before at *; omega

theorem Before.last_lt (h : i.Before j) : i.last < j.last := Nat.lt_of_lt_of_le h j.first_le_last

theorem Before.of_contains {i' j' : Interval f} (h : i.Before j) (hi : i.Contains i')
    (hj : j.Contains j') : i'.Before j' :=
  Nat.lt_of_le_of_lt hi.2 (Nat.lt_of_lt_of_le h hj.1)

theorem before_iff : i.Before j ↔ i.last < j.last ∧ ¬ i.Intersects j := by
  refine ⟨fun h => ⟨h.last_lt, h.not_intersects⟩, fun ⟨hl, hn⟩ => ?_⟩
  rcases not_intersects_iff.mp hn with h | h
  · exact h
  · exact absurd hl (Nat.lt_asymm h.last_lt)

theorem before_or_before_or (h : ¬ i.PartlyOverlaps j) :
    i.Before j ∨ j.Before i ∨ i.Contains j ∨ j.Contains i := by
  by_cases hi : i.Intersects j
  · by_cases hc : i.Contains j
    · exact .inr (.inr (.inl hc))
    · by_cases hc' : j.Contains i
      · exact .inr (.inr (.inr hc'))
      · exact absurd ⟨hi, hc, hc'⟩ h
  · rcases not_intersects_iff.mp hi with hb | hb
    · exact .inl hb
    · exact .inr (.inl hb)

/-- A partial overlap with a part of `i` is one with `i` itself, unless `j` and `i` are nested. -/
theorem PartlyOverlaps.of_contains (h : k.PartlyOverlaps j) (hi : i.Contains k)
    (hj : ¬ i.Contains j) : i.PartlyOverlaps j :=
  ⟨h.1.of_contains hi, hj, fun hc => h.2.2 (hc.trans hi)⟩

theorem Precedes.irrefl (i : Interval f) : ¬ i.Precedes i := by
  unfold Precedes; omega

theorem Before.precedes (h : i.Before j) : i.Precedes j :=
  .inl (Nat.lt_of_le_of_lt i.first_le_last h)

theorem Contains.precedes (h : i.Contains j) (hne : j ≠ i) : i.Precedes j := by
  have hn : ¬ (j.first = i.first ∧ j.last = i.last) := fun he => hne (Interval.ext he.1 he.2)
  unfold Contains at h
  unfold Precedes; omega

theorem Precedes.asymm (h : i.Precedes j) : ¬ j.Precedes i := by
  unfold Precedes at *; omega

/-- `i` comes before `j` in a walk of nested intervals: it ends before `j` starts, or it is
strictly around `j`. -/
def Leads (i j : Interval f) : Prop := i.Before j ∨ i.Contains j ∧ j ≠ i

theorem Leads.precedes (h : i.Leads j) : i.Precedes j := by
  rcases h with h | ⟨h, hne⟩
  · exact h.precedes
  · exact h.precedes hne

theorem Leads.not_partlyOverlaps (h : i.Leads j) : ¬ i.PartlyOverlaps j := by
  rcases h with h | ⟨h, -⟩
  · exact h.not_partlyOverlaps
  · exact fun hp => hp.2.1 h

end Netblock.Interval
