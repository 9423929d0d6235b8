import SemanticVersioning.Proofs.Range.Minimum

/-!
# How low the found version is among pre-releases

`Range.minimum?` is never above an admitted release, but it may be above an admitted pre-release. It
asks for `0.0.0` before `0.0.0-0`, and a set that demands more than `X.Y.Z` starts at `X.Y.(Z+1)`,
above the pre-releases of that version.

Whether anything is missed can be read off the ranks where the sets begin. The first rank on the inner
side of the lower edge of a set (`ComparatorSet.first`) is below all that the set admits. It need not
be admitted itself, since pre-releases are excluded by their cores. But it is admitted wherever the
search misses something: what is missed and the first rank are pre-releases of one core then
(`Range.exists_first_of_lt_minimum?`). So what is found is the lowest of all that is admitted exactly
if it is not above a first rank that its own set admits (`Range.minimum?_le_prerelease_iff`).
-/

namespace SemanticVersioning

/-! ## Where the versions of a set begin -/

namespace ComparatorSet

variable {set : ComparatorSet} {v : Version} {includePrerelease : Bool}

/-- The lowest version that meets the comparators of a set, if any version does. -/
def first (set : ComparatorSet) : Version :=
  { toRank := set.interval.lower.first }

theorem first_le (hv : set.test v = true) : set.first.toRank ≤ v.toRank := by
  rw [← admits_interval, Interval.admits, Bool.and_eq_true] at hv
  exact Edge.admitsAbove_iff_first_le.1 hv.1

theorem test_first (hv : set.test v = true) : set.test set.first = true := by
  rw [← admits_interval] at hv ⊢
  exact Interval.exists_admits_iff.1 ⟨v.toRank, hv⟩

/-- A set that admits a pre-release admits its first version, if that is a pre-release of the same
core. -/
theorem admits_first_of_core_eq (hv : set.admits includePrerelease v = true)
    (hpre : v.isPrerelease = true) (hfirst : set.first.isPrerelease = true)
    (hcore : set.first.core = v.core) : set.admits includePrerelease set.first = true := by
  rw [admits, Bool.and_eq_true] at hv ⊢
  rw [permits_congr hcore (hfirst.trans hpre.symm)]
  exact ⟨test_first hv.1, hv.2⟩

/-- A set that admits a version below `0.0.0` begins with a pre-release of `0.0.0`. -/
theorem first_of_lt_zero (hv : set.test v = true)
    (hlt : v.toRank < (Version.release 0 0 0).toRank) :
    set.first.isPrerelease = true ∧ set.first.core = v.core := by
  obtain ⟨hpre, hcore⟩ := Version.lt_zero_iff.1 (lt_of_le_of_lt (first_le hv) hlt)
  exact ⟨hpre, hcore.trans (Version.lt_zero_iff.1 hlt).2.symm⟩

/-- A set that admits what one of its comparators passes over begins with a version that is passed
over too. -/
theorem passesOver_first {c : Comparator} (hc : c ∈ set.comparators) (hv : set.test v = true)
    (hover : c.PassesOver v) : c.PassesOver set.first := by
  have hlow : c.test set.first = true := List.all_eq_true.1 (test_first hv) c hc
  have hstart : c.start? = some c.version.successor :=
    Comparator.start?_eq_some_iff.2 (Or.inl ⟨hover.operator, rfl⟩)
  rcases Comparator.start_le_or hstart hlow with hle | hfirst
  · exact absurd (hle.trans (first_le hv)) (not_le.2 hover.lt_successor)
  · exact hfirst

end ComparatorSet

/-! ## What stands below the found version -/

namespace Range

variable {range : Range} {m v : Version}

/-- **What is missed is missed together with the first version of a set.**  If a range admits a version
below the one that is found, then it is a pre-release, and a set admits its own first version, which is
not above that pre-release. -/
theorem exists_first_of_lt_minimum? (hm : range.minimum? = some m) (hv : range.admits v = true)
    (hlt : v.toRank < m.toRank) :
    v.isPrerelease = true ∧ ∃ set ∈ range.sets,
      set.admits range.options.includePrerelease set.first = true ∧
        set.first.toRank ≤ v.toRank := by
  rcases minimum?_le_or hm hv with hle | ⟨rfl, hpre, -⟩ | ⟨set, hset, hadmits, c, hc, hover⟩
  · exact absurd hle (not_le.2 hlt)
  · obtain ⟨set, hset, hadmits⟩ := List.any_eq_true.1 hv
    have htest := ComparatorSet.test_of_admits hadmits
    obtain ⟨hfirst, hcore⟩ := ComparatorSet.first_of_lt_zero htest hlt
    exact ⟨hpre, set, hset, ComparatorSet.admits_first_of_core_eq hadmits hpre hfirst hcore,
      ComparatorSet.first_le htest⟩
  · have htest := ComparatorSet.test_of_admits hadmits
    have hfirst := ComparatorSet.passesOver_first hc htest hover
    exact ⟨hover.prerelease, set, hset, ComparatorSet.admits_first_of_core_eq hadmits
      hover.prerelease hfirst.prerelease (hfirst.core.trans hover.core.symm),
      ComparatorSet.first_le htest⟩

/-- **When nothing is missed.**  What is found is not above any admitted pre-release exactly if it is
not above the first version of a set that admits it. Whatever is missed is a pre-release: one of
`0.0.0` if this is what is found, and otherwise one of the next patch of a release that a comparator
demands more than. -/
theorem minimum?_le_prerelease_iff (hm : range.minimum? = some m) :
    ((∀ v, range.admits v = true → v.isPrerelease = true → (compare m v).isLE = true) ↔
      ∀ set ∈ range.sets, set.admits range.options.includePrerelease set.first = true →
        (compare m set.first).isLE = true) ∧
    ∀ v, range.admits v = true → compare v m = .lt → v.isPrerelease = true ∧
      (m = .release 0 0 0 ∧ v.core = ⟨0, 0, 0⟩ ∨
        ∃ set ∈ range.sets, set.admits range.options.includePrerelease v = true ∧
          ∃ c ∈ set.comparators, c.PassesOver v) := by
  simp only [Version.isLE_compare_iff, Version.compare_eq_lt_iff_toRank]
  refine ⟨⟨fun h set hset hfirst => ?_, fun h v hv _ => ?_⟩, fun v hv hlt => ?_⟩
  · by_contra hnot
    have hadmits := admits_of_mem hset hfirst
    obtain ⟨hpre, -⟩ := exists_first_of_lt_minimum? hm hadmits (not_le.1 hnot)
    exact hnot (h _ hadmits hpre)
  · by_contra hnot
    obtain ⟨-, set, hset, hfirst, hle⟩ := exists_first_of_lt_minimum? hm hv (not_le.1 hnot)
    exact hnot ((h set hset hfirst).trans hle)
  · refine ⟨(exists_first_of_lt_minimum? hm hv hlt).1, ?_⟩
    rcases minimum?_le_or hm hv with hle | ⟨hzero, -, hcore⟩ | hover
    · exact absurd hle (not_le.2 hlt)
    · exact Or.inl ⟨hzero, hcore⟩
    · exact Or.inr hover

/-- The sets of this range begin at `1.2.3-beta` and `1.2.5-0`, and the first of these is found. -/
theorem minimum?_le_prerelease_iff_beta : ∃ (range : Range) (m : Version),
    parse ">=1.2.3-beta || >1.2.4" { includePrerelease := true } = .ok range ∧
    range.minimum? = some m ∧ m.render = "1.2.3-beta" ∧ range.admits (.numbered 1 2 5 0) = true ∧
    ∀ v, range.admits v = true → v.isPrerelease = true → (compare m v).isLE = true := by
  let written (core : Core) (preRelease : List Identifier) (text : String) : Version :=
    { core, preRelease, raw := some text,
      options := { loose := true, includePrerelease := true } }
  let beta := written ⟨1, 2, 3⟩ [.alphanumeric "beta"] "1.2.3-beta"
  let range : Range :=
    { sets := [⟨[.atLeast beta]⟩, ⟨[⟨.greater, written ⟨1, 2, 4⟩ [] "1.2.4"⟩]⟩]
      options := { includePrerelease := true } }
  have hm : range.minimum? = some beta := by decide +kernel
  have hfirst : ∀ set ∈ range.sets,
      set.admits range.options.includePrerelease set.first = true →
        (compare beta set.first).isLE = true := by decide +kernel
  exact ⟨range, beta, by decide +kernel, hm, by decide +kernel, by decide +kernel,
    (minimum?_le_prerelease_iff hm).1.2 hfirst⟩

/-- A pre-release of `1.2.4` is written and admitted, but what the set demands more than has `1.2.4`
for its successor. -/
theorem exists_lt_minimum? : ∃ (range : Range) (m v : Version),
    parse ">1.2.3 >=1.2.4-alpha" {} = .ok range ∧ range.minimum? = some m ∧ m.render = "1.2.4" ∧
    v.render = "1.2.4-alpha" ∧ v.isPrerelease = true ∧ range.admits v = true ∧
    compare v m = .lt := by
  let written (core : Core) (preRelease : List Identifier) (text : String) : Version :=
    { core, preRelease, raw := some text, options := { loose := true } }
  let alpha := written ⟨1, 2, 4⟩ [.alphanumeric "alpha"] "1.2.4-alpha"
  exact ⟨{ sets := [⟨[⟨.greater, written ⟨1, 2, 3⟩ [] "1.2.3"⟩, .atLeast alpha]⟩] },
    written ⟨1, 2, 4⟩ [] "1.2.3", alpha, by decide +kernel, by decide +kernel, by decide +kernel,
    by decide +kernel, by decide +kernel, by decide +kernel, by decide +kernel⟩

end Range
end SemanticVersioning
