import SemanticVersioning.Proofs.Range.Edge

/-!
# What an interval admits, and when it is empty

The interval of a comparator set is found by keeping, on either side, the tighter of two edges. The
tighter one implies the other, so nothing is lost: an interval admits what all the comparators admit
that it was tightened by (`ComparatorSet.admits_interval`), and the common part of two intervals
admits what both do (`Interval.admits_intersect`). To be admitted is to stand between the edges or on
one that is including (`Interval.admits_iff_encloses`).

An interval counts as empty if its edges have crossed. Whatever counts as empty is empty, but not
the other way round. The test would be exact if there were a rank between any two, and a rank has a
next one (`Rank.next`). What is missed is the *gap*: the open interval between a rank and the next
one (`Interval.isEmpty_eq_false_iff`).

Each lower edge has a first rank on its inner side (`Edge.first`), which is where a rank of the
interval is to be looked for.
-/

namespace SemanticVersioning

/-! ## Intervals -/

namespace Interval

theorem raise_eq (interval : Interval) (edge : Edge) : interval.raise edge = { interval with
    lower := if edge.tighter .gt interval.lower then edge else interval.lower } := by
  rw [raise]
  split <;> rfl

theorem cap_eq (interval : Interval) (edge : Edge) : interval.cap edge = { interval with
    upper := if edge.tighter .lt interval.upper then edge else interval.upper } := by
  rw [cap]
  split <;> rfl

theorem admits_raise (interval : Interval) (edge : Edge) (r : Rank) :
    (interval.raise edge).admits r = (interval.admits r && edge.admitsAbove r) := by
  rw [raise_eq, admits, admits, Edge.admitsAbove_tighter, Bool.and_right_comm]

theorem admits_cap (interval : Interval) (edge : Edge) (r : Rank) :
    (interval.cap edge).admits r = (interval.admits r && edge.admitsBelow r) := by
  rw [cap_eq, admits, admits, Edge.admitsBelow_tighter, Bool.and_assoc]

/-- The common part of two intervals admits what both do. -/
theorem admits_intersect (a b : Interval) (r : Rank) :
    (a.intersect b).admits r = (a.admits r && b.admits r) := by
  rw [intersect, admits_cap, admits_raise, Bool.and_assoc]
  rfl

/-- To tighten an interval by a comparator is to demand what the comparator demands. -/
theorem admits_tighten (interval : Interval) (c : Comparator) (v : Version) :
    (interval.tighten c).admits v.toRank = (interval.admits v.toRank && c.test v) := by
  obtain ⟨op, w⟩ := c
  cases op with
  | exact =>
    change ((interval.raise _).cap _).admits v.toRank = _
    rw [admits_cap, admits_raise, Bool.and_assoc, Edge.admits_including]
    rfl
  | greater => exact admits_raise interval _ _
  | greaterOrEqual => exact admits_raise interval _ _
  | less => exact admits_cap interval _ _
  | lessOrEqual => exact admits_cap interval _ _

theorem admits_foldl_tighten (cs : List Comparator) (interval : Interval) (v : Version) :
    (cs.foldl tighten interval).admits v.toRank =
      (interval.admits v.toRank && cs.all (·.test v)) := by
  induction cs generalizing interval with
  | nil => simp
  | cons c cs ih => rw [List.foldl_cons, ih, admits_tighten, List.all_cons, Bool.and_assoc]

end Interval

/-- **The interval of a set is exact.**  It admits the rank of a version exactly if the version
meets each comparator of the set. -/
theorem ComparatorSet.admits_interval (set : ComparatorSet) (v : Version) :
    set.interval.admits v.toRank = set.test v := by
  rw [interval, Interval.admits_foldl_tighten]
  exact Bool.true_and _

/-! ## Standing within the edges -/

namespace Interval

/-- Whether a rank stands within the edges of an interval: above the lower one and below the upper
one, or at an edge that is including. An unbounded edge demands nothing. -/
structure Encloses (interval : Interval) (r : Rank) : Prop where
  above : ∀ q, interval.lower.rank? = some q → q < r ∨ interval.lower = .including r
  below : ∀ q, interval.upper.rank? = some q → r < q ∨ interval.upper = .including r

theorem admits_iff_encloses {interval : Interval} {r : Rank} :
    interval.admits r = true ↔ interval.Encloses r := by
  rw [admits, Bool.and_eq_true, Edge.admitsAbove_iff, Edge.admitsBelow_iff]
  constructor
  · rintro ⟨habove, hbelow⟩
    exact ⟨habove, hbelow⟩
  · intro h
    exact ⟨h.above, h.below⟩

end Interval

/-! ## Empty intervals, and gaps -/

/-- The first rank on the inner side of a lower edge. -/
def Edge.first : Edge → Rank
  | unbounded => Version.lowest.toRank
  | including r => r
  | excluding r => r.next

theorem Edge.admitsAbove_iff_first_le {e : Edge} {r : Rank} :
    e.admitsAbove r = true ↔ e.first ≤ r := by
  cases e with
  | unbounded => simp [first, Rank.lowest_le]
  | including s => simp [first]
  | excluding s => simp [first, Rank.next_le_iff]

namespace Interval

/-- The open interval between a rank and the next one. -/
def IsGap (interval : Interval) : Prop :=
  ∃ r : Rank, interval = ⟨.excluding r, .excluding r.next⟩

/-- An interval admits a rank if it admits the first one on the inner side of its lower edge. -/
theorem exists_admits_iff {interval : Interval} : (∃ r, interval.admits r = true) ↔
    interval.admits interval.lower.first = true := by
  refine ⟨fun ⟨r, hr⟩ => ?_, fun h => ⟨_, h⟩⟩
  rw [admits, Bool.and_eq_true] at hr ⊢
  exact ⟨Edge.admitsAbove_iff_first_le.2 (le_refl _),
    Edge.admitsBelow_of_le hr.2 (Edge.admitsAbove_iff_first_le.1 hr.1)⟩

theorem IsGap.admits_eq_false {interval : Interval} (h : interval.IsGap) (r : Rank) :
    interval.admits r = false := by
  obtain ⟨s, rfl⟩ := h
  rw [Bool.eq_false_iff]
  intro hr
  rw [admits, Bool.and_eq_true, Edge.admitsAbove_excluding, Edge.admitsBelow_excluding] at hr
  exact absurd hr.2 (not_lt.2 (Rank.next_le_iff.2 hr.1))

/-- If there are two edges to compare, they have not crossed if they stand in order, or at one rank
that neither leaves out. -/
theorem isEmpty_eq_false_iff_of_rank? {interval : Interval} {low high : Rank}
    (hlow : interval.floor.rank? = some low) (hhigh : interval.upper.rank? = some high) :
    interval.isEmpty = false ↔ low < high ∨
      low = high ∧ interval.floor.isExcluding = false ∧ interval.upper.isExcluding = false := by
  rw [isEmpty, hlow, hhigh]
  rcases lt_trichotomy low high with h | rfl | h
  · simp [Std.compare_eq_lt.2 h, h]
  · simp
  · simp [Std.compare_eq_gt.2 h, lt_asymm h, (ne_of_lt h).symm]

/-- Unless the lower edge leaves its rank out, it counts as one that includes the first rank. -/
theorem floor_cases (interval : Interval) :
    interval.floor = .including interval.lower.first ∨
      ∃ r, interval.lower = .excluding r ∧ interval.floor = .excluding r := by
  obtain ⟨lower, upper⟩ := interval
  cases lower with
  | unbounded => exact Or.inl rfl
  | including r => exact Or.inl rfl
  | excluding r => exact Or.inr ⟨r, rfl, rfl⟩

/-- Behind a lower edge at an admitted rank, the edges have not crossed if the upper one admits the
rank too. -/
theorem isEmpty_eq_false_iff_of_including {interval : Interval} {r : Rank}
    (hfloor : interval.floor = .including r) :
    interval.isEmpty = false ↔ interval.upper.admitsBelow r = true := by
  have hlow : interval.floor.rank? = some r := congrArg Edge.rank? hfloor
  cases hupper : interval.upper with
  | unbounded => simp [isEmpty, hupper, Edge.rank?]
  | including q =>
    rw [isEmpty_eq_false_iff_of_rank? hlow (congrArg Edge.rank? hupper),
      Edge.admitsBelow_including, le_iff_lt_or_eq, hfloor, hupper]
    simp [Edge.isExcluding]
  | excluding q =>
    rw [isEmpty_eq_false_iff_of_rank? hlow (congrArg Edge.rank? hupper),
      Edge.admitsBelow_excluding, hupper]
    simp [Edge.isExcluding]

/-- Behind a lower edge that leaves its rank out, they have not crossed either if the upper one leaves
the next rank out. -/
theorem isEmpty_eq_false_iff_of_excluding {interval : Interval} {r : Rank}
    (hfloor : interval.floor = .excluding r) : interval.isEmpty = false ↔
      interval.upper.admitsBelow r.next = true ∨ interval.upper = .excluding r.next := by
  have hlow : interval.floor.rank? = some r := congrArg Edge.rank? hfloor
  cases hupper : interval.upper with
  | unbounded => simp [isEmpty, hupper, Edge.rank?]
  | including q =>
    rw [isEmpty_eq_false_iff_of_rank? hlow (congrArg Edge.rank? hupper),
      Edge.admitsBelow_including, Rank.next_le_iff, hfloor]
    simp [Edge.isExcluding]
  | excluding q =>
    have hnext : r.next < q ∨ q = r.next ↔ r < q := by
      rw [eq_comm, ← le_iff_lt_or_eq, Rank.next_le_iff]
    rw [isEmpty_eq_false_iff_of_rank? hlow (congrArg Edge.rank? hupper),
      Edge.admitsBelow_excluding, Edge.excluding.injEq, hnext, hfloor]
    simp [Edge.isExcluding]

/-- **What does not count as empty.**  The edges of an interval have not crossed exactly if a rank
stands between them or they stand at both ends of a gap. -/
theorem isEmpty_eq_false_iff {interval : Interval} : interval.isEmpty = false ↔
    interval.admits interval.lower.first = true ∨ interval.IsGap := by
  have hadmits : interval.admits interval.lower.first =
      interval.upper.admitsBelow interval.lower.first := by
    rw [admits, Edge.admitsAbove_iff_first_le.2 (le_refl _), Bool.true_and]
  rw [hadmits]
  rcases interval.floor_cases with hfloor | ⟨r, hlower, hfloor⟩
  · have hgap : ¬ interval.IsGap := by
      rintro ⟨r, rfl⟩
      cases hfloor
    rw [or_iff_left hgap]
    exact isEmpty_eq_false_iff_of_including hfloor
  · have hgap : interval.IsGap ↔ interval.upper = .excluding r.next := by
      constructor
      · rintro ⟨s, rfl⟩
        cases hlower
        rfl
      · intro hupper
        exact ⟨r, by rw [← hlower, ← hupper]⟩
    rw [hgap, hlower]
    exact isEmpty_eq_false_iff_of_excluding hfloor

end Interval
end SemanticVersioning
