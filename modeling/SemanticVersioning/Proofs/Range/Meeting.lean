import SemanticVersioning.Proofs.Range.Interval
import SemanticVersioning.Proofs.Range.Overflow

/-!
# Ranges that meet

Two ranges are said to meet if they have two sets whose intervals do not count as empty together.
Of what this should mean, a version in common, one half holds and the other does not.

* No common version is missed (`Range.meets_of_common_version`), since the interval of a set is
  exact.
* A common version may be missing. What does not count as empty holds a version or is a gap, and a
  gap is what two sets leave of which one is above a version and the other one below the next one.
  Ranges that were read meet exactly if they have a common version or leave a gap
  (`Range.meets_iff_common_or_gap`), and some leave nothing but a gap
  (`Range.exists_meets_without_common`).

A common version of ranges that were read can be had with small numbers. It is the first one on the
inner side of a lower edge, and edges stand at operands (`ComparatorSet.exists_of_lower`).
-/

namespace SemanticVersioning

/-! ## Where the lower edge of an interval stands -/

namespace Interval

variable {interval : Interval} {r : Rank}

theorem lower_raise (interval : Interval) (edge : Edge) :
    (interval.raise edge).lower = interval.lower ∨ (interval.raise edge).lower = edge := by
  rw [raise]
  split
  · exact Or.inr rfl
  · exact Or.inl rfl

@[simp] theorem lower_cap (interval : Interval) (edge : Edge) :
    (interval.cap edge).lower = interval.lower := by
  rw [cap_eq]

theorem lower_intersect (a b : Interval) :
    (a.intersect b).lower = a.lower ∨ (a.intersect b).lower = b.lower := by
  rw [intersect, lower_cap]
  exact a.lower_raise b.lower

theorem rank?_lower_raise {edge : Edge} {s : Rank} (hedge : edge.rank? = some s)
    (h : (interval.raise edge).lower.rank? = some r) : interval.lower.rank? = some r ∨ s = r := by
  rcases interval.lower_raise edge with hlower | hlower <;> rw [hlower] at h
  · exact Or.inl h
  · exact Or.inr (Option.some.inj (hedge.symm.trans h))

theorem rank?_lower_tighten {c : Comparator} (h : (interval.tighten c).lower.rank? = some r) :
    interval.lower.rank? = some r ∨ c.version.toRank = r := by
  obtain ⟨op, v⟩ := c
  cases op with
  | exact =>
    change ((interval.raise _).cap _).lower.rank? = some r at h
    rw [lower_cap] at h
    exact rank?_lower_raise rfl h
  | greater => exact rank?_lower_raise rfl h
  | greaterOrEqual => exact rank?_lower_raise rfl h
  | less =>
    change (interval.cap _).lower.rank? = some r at h
    rw [lower_cap] at h
    exact Or.inl h
  | lessOrEqual =>
    change (interval.cap _).lower.rank? = some r at h
    rw [lower_cap] at h
    exact Or.inl h

theorem rank?_lower_foldl_tighten {cs : List Comparator}
    (h : (cs.foldl tighten interval).lower.rank? = some r) :
    interval.lower.rank? = some r ∨ ∃ c ∈ cs, c.version.toRank = r := by
  induction cs generalizing interval with
  | nil => exact Or.inl h
  | cons c cs ih =>
    rcases ih h with hr | ⟨d, hd, hr⟩
    · rcases rank?_lower_tighten hr with hr | hr
      · exact Or.inl hr
      · exact Or.inr ⟨c, List.mem_cons_self, hr⟩
    · exact Or.inr ⟨d, List.mem_cons_of_mem c hd, hr⟩

end Interval

/-- The lower edge of a set stands at the operand of one of its comparators. -/
theorem ComparatorSet.exists_of_lower {set : ComparatorSet} {r : Rank}
    (h : set.interval.lower.rank? = some r) : ∃ c ∈ set.comparators, c.version.toRank = r :=
  (Interval.rank?_lower_foldl_tighten h).resolve_left nofun

/-! ## Small numbers -/

/-- Whether no number of a rank is above a limit. -/
structure Rank.NumbersLE (r : Rank) (limit : Nat) : Prop where
  major : r.core.major ≤ limit
  minor : r.core.minor ≤ limit
  patch : r.core.patch ≤ limit
  identifiers : ∀ n, .numeric n ∈ r.preRelease → n ≤ limit

namespace Rank.NumbersLE

variable {r : Rank} {limit : Nat}

theorem succ (h : r.NumbersLE limit) : r.NumbersLE (limit + 1) where
  major := Nat.le_succ_of_le h.major
  minor := Nat.le_succ_of_le h.minor
  patch := Nat.le_succ_of_le h.patch
  identifiers n hn := Nat.le_succ_of_le (h.identifiers n hn)

/-- The rank that follows adds one to a number, or a zero. -/
theorem next (h : r.NumbersLE limit) : r.next.NumbersLE (limit + 1) := by
  have hzero : ∀ n, .numeric n ∈ [Identifier.numeric 0] → n ≤ limit + 1 := by simp
  obtain ⟨⟨major, minor, patch⟩, is⟩ := r
  cases is with
  | nil => exact ⟨h.succ.major, h.succ.minor, Nat.succ_le_succ h.patch, hzero⟩
  | cons i is =>
    refine ⟨h.succ.major, h.succ.minor, h.succ.patch, fun n hn => ?_⟩
    rcases List.mem_append.1 hn with hn | hn
    · exact h.succ.identifiers n hn
    · exact hzero n hn

theorem lowest : Version.lowest.toRank.NumbersLE limit where
  major := Nat.zero_le limit
  minor := Nat.zero_le limit
  patch := Nat.zero_le limit
  identifiers := by simp [Version.lowest, Version.numbered]

/-- The first rank on the inner side of an edge has small numbers if the edge stands at one that
does. -/
theorem first {e : Edge} (h : ∀ r, e.rank? = some r → r.NumbersLE limit) :
    e.first.NumbersLE (limit + 1) := by
  cases e with
  | unbounded => exact lowest
  | including r => exact (h r rfl).succ
  | excluding r => exact (h r rfl).next

end Rank.NumbersLE

/-- The numbers of a range that was read are at most the one after the limit. -/
theorem Range.numbersLE_of_parse {text : String} {options : Options} {range : Range}
    (h : parse text options = .ok range) {set : ComparatorSet} (hset : set ∈ range.sets)
    {c : Comparator} (hc : c ∈ set.comparators) :
    c.version.toRank.NumbersLE (maxSafeInteger + 1) := by
  obtain ⟨-, -, o, -, ⟨t, hwrites⟩, hdrawn⟩ := exists_drawnFrom_of_parse h hset hc
  have hlimit : ∀ n ∈ (o.resolve options).numbers, n < maxSafeInteger + 1 := by
    rw [o.numbers_resolve]
    exact fun n hn => Nat.lt_succ_of_le (hwrites.numbers_le n hn)
  exact ⟨hdrawn.reaches.1.le hlimit, hdrawn.reaches.2.1.le hlimit, hdrawn.reaches.2.2.le hlimit,
    fun n hn => Nat.le_succ_of_le ((hdrawn.plain hwrites).identifiers _ hn)⟩

/-! ## Sets that meet -/

namespace ComparatorSet

variable {s t : ComparatorSet}

theorem admits_intersect (s t : ComparatorSet) (v : Version) :
    (s.interval.intersect t.interval).admits v.toRank = true ↔
      s.test v = true ∧ t.test v = true := by
  rw [Interval.admits_intersect, admits_interval, admits_interval, Bool.and_eq_true]

/-- Two sets meet exactly if the first version above their lower edges meets both, or if they leave
a gap. -/
theorem meets_iff : s.meets t = true ↔
    (s.interval.intersect t.interval).admits (s.interval.intersect t.interval).lower.first = true ∨
      (s.interval.intersect t.interval).IsGap := by
  rw [meets, Bool.not_eq_true', Interval.isEmpty_eq_false_iff]

theorem meets_of_common {v : Version} (hs : s.test v = true) (ht : t.test v = true) :
    s.meets t = true :=
  meets_iff.2 (Or.inl (Interval.exists_admits_iff.1 ⟨_, (admits_intersect s t v).2 ⟨hs, ht⟩⟩))

/-- No version meets two sets that leave a gap. -/
theorem not_common_of_isGap (h : (s.interval.intersect t.interval).IsGap) (v : Version) :
    ¬ (s.test v = true ∧ t.test v = true) := by
  rw [← admits_intersect, h.admits_eq_false]
  exact Bool.false_ne_true

/-- Two sets that meet without leaving a gap have a common version, whose numbers are hardly greater
than those of their comparators. -/
theorem exists_common_of_meets {limit : Nat} (h : s.meets t = true)
    (hgap : ¬ (s.interval.intersect t.interval).IsGap)
    (hs : ∀ c ∈ s.comparators, c.version.toRank.NumbersLE limit)
    (ht : ∀ c ∈ t.comparators, c.version.toRank.NumbersLE limit) :
    ∃ v : Version, v.toRank.NumbersLE (limit + 1) ∧ s.test v = true ∧ t.test v = true := by
  let v : Version := { toRank := (s.interval.intersect t.interval).lower.first }
  refine ⟨v, .first fun r hr => ?_, (admits_intersect s t v).1 ((meets_iff.1 h).resolve_right hgap)⟩
  rcases s.interval.lower_intersect t.interval with hlower | hlower <;> rw [hlower] at hr
  · obtain ⟨c, hc, rfl⟩ := exists_of_lower hr
    exact hs c hc
  · obtain ⟨c, hc, rfl⟩ := exists_of_lower hr
    exact ht c hc

end ComparatorSet

/-! ## Ranges that meet -/

namespace Range

theorem meets_eq_true_iff {a b : Range} :
    a.meets b = true ↔ ∃ s ∈ a.sets, ∃ t ∈ b.sets, s.meets t = true := by
  simp only [meets, List.any_eq_true]

theorem exists_test_of_admits {range : Range} {v : Version} (h : range.admits v = true) :
    ∃ set ∈ range.sets, set.test v = true := by
  obtain ⟨set, hset, hadmits⟩ := List.any_eq_true.1 h
  exact ⟨set, hset, ComparatorSet.test_of_admits hadmits⟩

/-- **No common version is missed.**  Ranges meet if a version meets a set of one and a set of the
other, and in particular if both admit it. -/
theorem meets_of_common_version (a b : Range) (v : Version) :
    ((∃ s ∈ a.sets, s.test v = true) → (∃ t ∈ b.sets, t.test v = true) → a.meets b = true) ∧
      (a.admits v = true → b.admits v = true → a.meets b = true) := by
  have hmeets : (∃ s ∈ a.sets, s.test v = true) → (∃ t ∈ b.sets, t.test v = true) →
      a.meets b = true := by
    rintro ⟨s, hs, hsv⟩ ⟨t, ht, htv⟩
    exact meets_eq_true_iff.2 ⟨s, hs, t, ht, ComparatorSet.meets_of_common hsv htv⟩
  exact ⟨hmeets, fun ha hb => hmeets (exists_test_of_admits ha) (exists_test_of_admits hb)⟩

/-- The pre-release `1.2.5-rc.2` meets a set of either range, although the first one does not admit
it. The release `1.2.6` is admitted by the second one and by the range of all releases. -/
theorem meets_of_common_version_tilde : ∃ a b : Range,
    parse ">=1.2.3 <1.3 || 7.x" {} = .ok a ∧ parse "~1.2.5-rc.1" {} = .ok b ∧
    a.admits { core := ⟨1, 2, 5⟩, preRelease := [.alphanumeric "rc", .numeric 2] } = false ∧
    a.meets b = true ∧ anyRelease.meets b = true := by
  let v : Version := { core := ⟨1, 2, 5⟩, preRelease := [.alphanumeric "rc", .numeric 2] }
  let written (core : Core) (preRelease : List Identifier) (text : String) : Version :=
    { core, preRelease, raw := some text, options := { loose := true } }
  let s : ComparatorSet := ⟨[.atLeast (written ⟨1, 2, 3⟩ [] "1.2.3"), .ceiling 1 3 0]⟩
  let t : ComparatorSet :=
    ⟨[.atLeast (written ⟨1, 2, 5⟩ [.alphanumeric "rc", .numeric 1] "1.2.5-rc.1"), .ceiling 1 3 0]⟩
  let a : Range := { sets := [s, ⟨[.floor false 7 0 0, .ceiling 8 0 0]⟩] }
  let b : Range := { sets := [t] }
  have ha : parse ">=1.2.3 <1.3 || 7.x" {} = .ok a := by decide +kernel
  have hb : parse "~1.2.5-rc.1" {} = .ok b := by decide +kernel
  refine ⟨a, b, ha, hb, by decide +kernel, ?_, ?_⟩
  · exact (meets_of_common_version a b v).1 ⟨s, List.mem_cons_self, by decide +kernel⟩
      ⟨t, List.mem_cons_self, by decide +kernel⟩
  · exact (meets_of_common_version anyRelease b (.release 1 2 6)).2 (by decide +kernel)
      (by decide +kernel)

/-- **When ranges meet.**  Two ranges that were read meet exactly if some version, with numbers
hardly beyond the limit, meets a set of one and a set of the other, or if two of their sets leave a
gap. Sets that leave a gap have no version in common. -/
theorem meets_iff_common_or_gap {textA textB : String} {optionsA optionsB : Options} {a b : Range}
    (ha : parse textA optionsA = .ok a) (hb : parse textB optionsB = .ok b) :
    (a.meets b = true ↔
      (∃ v : Version, v.toRank.NumbersLE (maxSafeInteger + 2) ∧
        (∃ s ∈ a.sets, s.test v = true) ∧ ∃ t ∈ b.sets, t.test v = true) ∨
      ∃ s ∈ a.sets, ∃ t ∈ b.sets, (s.interval.intersect t.interval).IsGap) ∧
    ∀ s ∈ a.sets, ∀ t ∈ b.sets, (s.interval.intersect t.interval).IsGap →
      ∀ v : Version, ¬ (s.test v = true ∧ t.test v = true) := by
  refine ⟨?_, fun s _ t _ hgap v => ComparatorSet.not_common_of_isGap hgap v⟩
  rw [meets_eq_true_iff]
  constructor
  · rintro ⟨s, hs, t, ht, hmeets⟩
    by_cases hgap : (s.interval.intersect t.interval).IsGap
    · exact Or.inr ⟨s, hs, t, ht, hgap⟩
    · obtain ⟨v, hv, hsv, htv⟩ := ComparatorSet.exists_common_of_meets hmeets hgap
        (fun c hc => numbersLE_of_parse ha hs hc) (fun c hc => numbersLE_of_parse hb ht hc)
      exact Or.inl ⟨v, hv, ⟨s, hs, hsv⟩, t, ht, htv⟩
  · rintro (⟨v, -, ⟨s, hs, hsv⟩, t, ht, htv⟩ | ⟨s, hs, t, ht, hgap⟩)
    · exact ⟨s, hs, t, ht, ComparatorSet.meets_of_common hsv htv⟩
    · exact ⟨s, hs, t, ht, ComparatorSet.meets_iff.2 (Or.inr hgap)⟩

/-- The version `2.5.0` meets the second sets of these ranges. The first ones leave the gap between
`1.2.3-rc` and `1.2.3-rc.0`. -/
theorem meets_iff_common_or_gap_rc : ∃ a b : Range,
    parse ">1.2.3-rc || 2.x" {} = .ok a ∧ parse "<1.2.3-rc.0 || >=2.5" {} = .ok b ∧
    a.meets b = true ∧
    ∃ s ∈ a.sets, ∃ t ∈ b.sets, s.meets t = true ∧
      ∀ v : Version, ¬ (s.test v = true ∧ t.test v = true) := by
  let written (preRelease : List Identifier) (text : String) : Version :=
    { core := ⟨1, 2, 3⟩, preRelease, raw := some text, options := { loose := true } }
  let s : ComparatorSet := ⟨[⟨.greater, written [.alphanumeric "rc"] "1.2.3-rc"⟩]⟩
  let s' : ComparatorSet := ⟨[.floor false 2 0 0, .ceiling 3 0 0]⟩
  let t : ComparatorSet := ⟨[.below (written [.alphanumeric "rc", .numeric 0] "1.2.3-rc.0")]⟩
  let t' : ComparatorSet := ⟨[.floor false 2 5 0]⟩
  let a : Range := { sets := [s, s'] }
  let b : Range := { sets := [t, t'] }
  have ha : parse ">1.2.3-rc || 2.x" {} = .ok a := by decide +kernel
  have hb : parse "<1.2.3-rc.0 || >=2.5" {} = .ok b := by decide +kernel
  have hgap : (s.interval.intersect t.interval).IsGap :=
    ⟨⟨⟨1, 2, 3⟩, [.alphanumeric "rc"]⟩, by decide +kernel⟩
  obtain ⟨hiff, hnone⟩ := meets_iff_common_or_gap ha hb
  refine ⟨a, b, ha, hb, hiff.2 (Or.inl ⟨.release 2 5 0, ?_, ⟨s', by simp [a], by decide +kernel⟩,
    t', by simp [b], by decide +kernel⟩), s, List.mem_cons_self, t, List.mem_cons_self,
    by decide +kernel, hnone s List.mem_cons_self t List.mem_cons_self hgap⟩
  exact ⟨by decide, by decide, by decide, by simp [Version.release]⟩

/-- The only version that `^0.0.1` is about is `0.0.1`, since all above it and below `0.0.2-0` would
have to stand in a gap. Yet the range counts as meeting `>0.0.1`. -/
theorem exists_meets_without_common : ∃ a b : Range,
    parse ">0.0.1" {} = .ok a ∧ parse "^0.0.1" {} = .ok b ∧ a.meets b = true ∧
    ∀ v : Version, ¬ ((∃ s ∈ a.sets, s.test v = true) ∧ ∃ t ∈ b.sets, t.test v = true) := by
  let v : Version := { core := ⟨0, 0, 1⟩, raw := some "0.0.1", options := { loose := true } }
  let s : ComparatorSet := ⟨[⟨.greater, v⟩]⟩
  let t : ComparatorSet := ⟨[.atLeast v, .ceiling 0 0 2]⟩
  have hgap : (s.interval.intersect t.interval).IsGap := ⟨v.toRank, by decide +kernel⟩
  refine ⟨{ sets := [s] }, { sets := [t] }, by decide +kernel, by decide +kernel,
    by decide +kernel, ?_⟩
  rintro w ⟨⟨s', hs, hsw⟩, t', ht, htw⟩
  obtain rfl := List.mem_singleton.1 hs
  obtain rfl := List.mem_singleton.1 ht
  exact ComparatorSet.not_common_of_isGap hgap w ⟨hsw, htw⟩

end Range
end SemanticVersioning
