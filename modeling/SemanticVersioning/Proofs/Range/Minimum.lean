import Mathlib.Order.OrderDual
import SemanticVersioning.Proofs.Best
import SemanticVersioning.Proofs.Range.Interval
import SemanticVersioning.Range.Minimum
import SemanticVersioning.Range.Printer
import SemanticVersioning.Range.Reader

/-!
# What the search for the lowest version finds

`Range.minimum?` tries `0.0.0` and `0.0.0-0` and then a single version: the lowest of the starting
points of the sets. Two questions are answered here.

* *Is there a release below what is found?*  No (`Range.minimum?_le_release`). Whatever release a set
  admits is not below its starting point, and a set without a starting point admits one of the first
  two candidates if it admits anything.
* *Is something found whenever something is admitted?*  Not always. The starting points of the other
  sets are forgotten before it is known whether the lowest one is admitted. So a set may hide what the
  others admit (`Range.HiddenBy`), and this is the only way in which the search fails
  (`Range.minimum?_found_or_hidden`).

## What a hiding set admits

Nothing from its starting point on. Most hiding sets admit nothing at all, since their demands
contradict each other. The others demand more than a release `X.Y.Z`. The search then starts at
`X.Y.(Z+1)` and passes over the pre-releases of that version (`Comparator.PassesOver`), and it is these
that the set may still admit.
-/

namespace SemanticVersioning

/-! ## What comparators demand of ranks -/

/-- The relation between ranks that an operator stands for. -/
def Operator.Relates : Operator → Rank → Rank → Prop
  | exact, r, s => r = s
  | greater, r, s => s < r
  | greaterOrEqual, r, s => s ≤ r
  | less, r, s => r < s
  | lessOrEqual, r, s => r ≤ s

theorem Comparator.test_iff {c : Comparator} {v : Version} :
    c.test v = true ↔ c.operator.Relates v.toRank c.version.toRank := by
  obtain ⟨op, w⟩ := c
  cases op with
  | exact => exact Ordering.isEq_iff_eq_eq.trans Version.compare_eq_eq_iff
  | greater => exact Edge.admitsAbove_excluding
  | greaterOrEqual => exact Edge.admitsAbove_including
  | less => exact Edge.admitsBelow_excluding
  | lessOrEqual => exact Edge.admitsBelow_including

/-! ## Successors -/

namespace Version

variable {v w : Version}

theorem isPrerelease_eq_false_iff : v.isPrerelease = false ↔ v.preRelease = [] := by
  simp [isPrerelease, Rank.isPrerelease]

/-- Of a pre-release the successor has the very next rank. -/
theorem toRank_successor_of_isPrerelease (hv : v.isPrerelease = true) :
    v.successor.toRank = v.toRank.next := by
  obtain ⟨⟨core, is⟩, build, raw, options⟩ := v
  cases is with
  | nil => exact nomatch hv
  | cons i is => rfl

/-- Of a release it is the release of the next patch, which comes after that patch's pre-releases. -/
theorem toRank_successor_of_release (hv : v.isPrerelease = false) :
    v.successor.toRank = ⟨{ v.core with patch := v.core.patch + 1 }, []⟩ := by
  have hnil : v.preRelease = [] := isPrerelease_eq_false_iff.1 hv
  rw [successor, hv, if_neg Bool.false_ne_true]
  exact congrArg (Rank.mk _) hnil

theorem isPrerelease_successor (v : Version) : v.successor.isPrerelease = v.isPrerelease := by
  rw [isPrerelease]
  cases hv : v.isPrerelease with
  | false => rw [toRank_successor_of_release hv]; rfl
  | true =>
    rw [toRank_successor_of_isPrerelease hv]
    obtain ⟨⟨core, is⟩, build, raw, options⟩ := v
    cases is with
    | nil => exact absurd hv Bool.false_ne_true
    | cons i is => rfl

theorem core_successor_of_isPrerelease (hv : v.isPrerelease = true) :
    v.successor.core = v.core := by
  rw [successor, if_pos hv]
  rfl

theorem lt_release_of_core_lt {r : Rank} {core : Core} (h : compare r.core core = .lt) :
    r < ⟨core, []⟩ :=
  Rank.lt_iff.2 (Or.inl h)

/-- What is below a release is of a lower core, or a pre-release of that release. -/
theorem lt_release_iff {r : Rank} {core : Core} :
    r < ⟨core, []⟩ ↔ compare r.core core = .lt ∨ r.core = core ∧ r.preRelease ≠ [] := by
  rw [Rank.lt_iff]
  refine or_congr_right (and_congr_right fun _ => ?_)
  cases r.preRelease <;> simp [PreRelease.compare]

/-- What is below `0.0.0` is a pre-release of it. -/
theorem lt_zero_iff : v.toRank < (release 0 0 0).toRank ↔
    v.isPrerelease = true ∧ v.core = ⟨0, 0, 0⟩ := by
  rw [← Bool.not_eq_false, isPrerelease_eq_false_iff, and_comm]
  refine lt_release_iff.trans (or_iff_right fun hlt => ?_)
  simp [Core.compare_eq_lt_iff] at hlt

theorem lt_successor (v : Version) : v.toRank < v.successor.toRank := by
  cases hv : v.isPrerelease with
  | true =>
    rw [toRank_successor_of_isPrerelease hv]
    exact v.toRank.lt_next
  | false =>
    rw [toRank_successor_of_release hv]
    refine lt_release_of_core_lt (Core.compare_eq_lt_iff.2 ?_)
    simp

/-- **What stands above a version but not from its successor on.**  Only the pre-releases of the next
patch of a release do. -/
theorem successor_le_or (h : v.toRank < w.toRank) : v.successor.toRank ≤ w.toRank ∨
    v.isPrerelease = false ∧ w.isPrerelease = true ∧ w.core = v.successor.core := by
  rw [← Rank.next_le_iff] at h
  cases hv : v.isPrerelease with
  | true => exact Or.inl (by rwa [toRank_successor_of_isPrerelease hv])
  | false =>
    by_cases hle : v.successor.toRank ≤ w.toRank
    · exact Or.inl hle
    refine Or.inr ⟨rfl, ?_⟩
    have hcore : v.successor.core = { v.core with patch := v.core.patch + 1 } :=
      congrArg Rank.core (toRank_successor_of_release hv)
    have hnext : v.toRank.next = ⟨v.successor.core, [.numeric 0]⟩ := by
      obtain ⟨⟨core, is⟩, build, raw, options⟩ := v
      obtain rfl : is = [] := isPrerelease_eq_false_iff.1 hv
      rfl
    rw [hnext] at h
    rw [toRank_successor_of_release hv, ← hcore, not_le] at hle
    rcases lt_release_iff.1 hle with hlt | ⟨hsame, hne⟩
    · exact absurd h (not_le.2 (Rank.lt_numbered_zero_iff.2 hlt))
    · refine ⟨?_, hsame⟩
      rw [← Bool.not_eq_false, isPrerelease_eq_false_iff]
      exact hne

end Version

/-! ## Where comparators start -/

namespace Comparator

variable {c : Comparator} {m v w : Version}

/-- Whether the search passes over a pre-release: a comparator demands more than a release, and what
it passes over is a pre-release of the next patch. -/
structure PassesOver (c : Comparator) (w : Version) : Prop where
  operator : c.operator = .greater
  release : c.version.isPrerelease = false
  prerelease : w.isPrerelease = true
  core : w.core = c.version.successor.core

theorem start?_eq_some_iff : c.start? = some m ↔ c.operator = .greater ∧ m = c.version.successor ∨
    (c.operator = .greaterOrEqual ∨ c.operator = .exact) ∧ m = c.version := by
  obtain ⟨op, u⟩ := c
  cases op <;> simp [start?, eq_comm]

/-- What a comparator admits stands at its starting point or above, or is passed over. -/
theorem start_le_or (hm : c.start? = some m) (hw : c.test w = true) :
    m.toRank ≤ w.toRank ∨ c.PassesOver w := by
  rw [test_iff] at hw
  rcases start?_eq_some_iff.1 hm with ⟨hop, rfl⟩ | ⟨hop, rfl⟩
  · rw [hop] at hw
    rcases Version.successor_le_or hw with hle | ⟨hrelease, hpre, hcore⟩
    · exact Or.inl hle
    · exact Or.inr ⟨hop, hrelease, hpre, hcore⟩
  · rcases hop with hop | hop <;> rw [hop] at hw
    · exact Or.inl hw
    · exact Or.inl (ge_of_eq hw)

/-- Between its starting point and a version that it admits, a comparator admits everything. -/
theorem test_of_le (hv : c.test v = true) (hstart : ∀ m, c.start? = some m → m.toRank ≤ w.toRank)
    (hwv : w.toRank ≤ v.toRank) : c.test w = true := by
  rw [test_iff] at hv ⊢
  obtain ⟨op, u⟩ := c
  cases op with
  | exact => exact le_antisymm (hwv.trans (le_of_eq hv)) (hstart u rfl)
  | greater => exact lt_of_lt_of_le u.lt_successor (hstart u.successor rfl)
  | greaterOrEqual => exact hstart u rfl
  | less => exact lt_of_le_of_lt hwv hv
  | lessOrEqual => exact le_trans hwv hv

/-- The starting point of a comparator is a pre-release only if the operand is one of the same
core. -/
theorem namesPrereleaseOf_start (hm : c.start? = some m) (hpre : m.isPrerelease = true) :
    c.namesPrereleaseOf m.core = true := by
  rcases start?_eq_some_iff.1 hm with ⟨-, rfl⟩ | ⟨-, rfl⟩
  · rw [Version.isPrerelease_successor] at hpre
    simp [namesPrereleaseOf, hpre, Version.core_successor_of_isPrerelease hpre]
  · simp [namesPrereleaseOf, hpre]

/-- What is passed over stands below the release that the search goes to. -/
theorem PassesOver.lt_successor (h : c.PassesOver w) :
    w.toRank < c.version.successor.toRank := by
  have hsuccessor := Version.toRank_successor_of_release h.release
  have hpre : ¬ w.preRelease = [] := fun hnil => Bool.false_ne_true
    ((Version.isPrerelease_eq_false_iff.2 hnil).symm.trans h.prerelease)
  rw [hsuccessor, Version.lt_release_iff]
  exact Or.inr ⟨h.core.trans (congrArg Rank.core hsuccessor), hpre⟩

theorem PassesOver.eq_successor (h : c.PassesOver w) (hm : c.start? = some m) :
    m = c.version.successor := by
  rcases start?_eq_some_iff.1 hm with ⟨-, hm⟩ | ⟨hop, -⟩
  · exact hm
  · rw [h.operator] at hop
    simp at hop

end Comparator

/-! ## Where sets start -/

theorem seeks_highest :
    Seeks (fun v kept : Version => (compare v kept).isGT) (fun v => v.toRank) :=
  .of_displaces_iff_lt fun _ _ => Edge.admitsAbove_excluding

theorem seeks_lowest :
    Seeks (fun v kept : Version => (compare v kept).isLT) (fun v => OrderDual.toDual v.toRank) :=
  .of_displaces_iff_lt fun _ _ => Edge.admitsBelow_excluding.trans OrderDual.toDual_lt_toDual.symm

namespace ComparatorSet

variable {set : ComparatorSet} {m v w : Version} {includePrerelease : Bool}

/-- A set starts where one of its comparators does. -/
theorem exists_of_start?_eq_some (hm : set.start? = some m) :
    ∃ c ∈ set.comparators, c.start? = some m :=
  List.mem_filterMap.1 (mem_of_best?_eq_some hm)

/-- No comparator of a set starts above the set. -/
theorem exists_start_le {c : Comparator} (hc : c ∈ set.comparators) (hw : c.start? = some w) :
    ∃ m, set.start? = some m ∧ w.toRank ≤ m.toRank := by
  have hmem : w ∈ set.comparators.filterMap (·.start?) := List.mem_filterMap.2 ⟨c, hc, hw⟩
  obtain ⟨m, hm⟩ := exists_best? (fun v kept => (compare v kept).isGT)
    (List.ne_nil_of_mem hmem)
  exact ⟨m, hm, seeks_highest.le_of_best?_eq_some hm w hmem⟩

/-- What a set admits stands at its starting point or above, or is passed over. -/
theorem start_le_or (hm : set.start? = some m) (hw : set.test w = true) :
    m.toRank ≤ w.toRank ∨ ∃ c ∈ set.comparators, c.start? = some m ∧ c.PassesOver w := by
  obtain ⟨c, hc, hcm⟩ := exists_of_start?_eq_some hm
  rcases Comparator.start_le_or hcm (List.all_eq_true.1 hw c hc) with hle | hpasses
  · exact Or.inl hle
  · exact Or.inr ⟨c, hc, hcm, hpasses⟩

/-- Between its starting point and a version that meets it, a set is met by everything. -/
theorem test_of_le (hv : set.test v = true) (hstart : ∀ m, set.start? = some m → m.toRank ≤ w.toRank)
    (hwv : w.toRank ≤ v.toRank) : set.test w = true := by
  refine List.all_eq_true.2 fun c hc => ?_
  refine Comparator.test_of_le (List.all_eq_true.1 hv c hc) (fun u hu => ?_) hwv
  obtain ⟨m, hm, hle⟩ := exists_start_le hc hu
  exact hle.trans (hstart m hm)

/-- The starting point of a set is not excluded from it. -/
theorem permits_start (hm : set.start? = some m) : set.permits m = true := by
  obtain ⟨c, hc, hcm⟩ := exists_of_start?_eq_some hm
  rw [permits, Bool.or_eq_true, Bool.not_eq_true']
  cases hpre : m.isPrerelease with
  | false => exact Or.inl rfl
  | true =>
    exact Or.inr (List.any_eq_true.2 ⟨c, hc, Comparator.namesPrereleaseOf_start hcm hpre⟩)

/-- A set that admits something from its starting point on admits the starting point. -/
theorem admits_start (hm : set.start? = some m) (hv : set.admits includePrerelease v = true)
    (hle : m.toRank ≤ v.toRank) : set.admits includePrerelease m = true := by
  rw [admits, Bool.and_eq_true] at hv ⊢
  refine ⟨test_of_le hv.1 (fun u hu => ?_) hle, ?_⟩
  · obtain rfl := Option.some.inj (hm.symm.trans hu)
    exact le_rfl
  · rw [permits_start hm, Bool.or_true]

/-- **A set without a starting point admits `0.0.0` or `0.0.0-0`**, if it admits anything. Its demands
all bound from above. What it admits is a pre-release of `0.0.0`, or is not below `0.0.0`. -/
theorem admits_first (hstart : set.start? = none) (hv : set.admits includePrerelease v = true) :
    set.admits includePrerelease (.release 0 0 0) = true ∨
      set.admits includePrerelease .lowest = true := by
  rw [admits, Bool.and_eq_true] at hv
  have htest : ∀ {w : Version}, w.toRank ≤ v.toRank → set.test w = true := fun hwv =>
    test_of_le hv.1 (fun m hm => absurd (hstart.symm.trans hm) (Option.some_ne_none m).symm) hwv
  by_cases hzero : (Version.release 0 0 0).toRank ≤ v.toRank
  · refine Or.inl ?_
    rw [admits, htest hzero, permits, Version.isPrerelease_release]
    simp
  · refine Or.inr ?_
    obtain ⟨hpre, hcore⟩ := Version.lt_zero_iff.1 (not_le.1 hzero)
    have hpermits : set.permits .lowest = set.permits v := permits_congr hcore.symm hpre.symm
    rw [admits, htest (Rank.lowest_le _), hpermits]
    exact hv.2

end ComparatorSet

/-! ## What is found -/

namespace Range

variable {range : Range} {set : ComparatorSet} {m v w : Version}

theorem admits_of_mem (hset : set ∈ range.sets)
    (hv : set.admits range.options.includePrerelease v = true) : range.admits v = true :=
  List.any_eq_true.2 ⟨set, hset, hv⟩

theorem admits_congr (h : v.toRank = w.toRank) : range.admits v = range.admits w := by
  obtain ⟨r, build, raw, options⟩ := v
  obtain ⟨s, build', raw', options'⟩ := w
  obtain rfl : r = s := h
  rfl

/-- A range starts where one of its sets does. -/
theorem exists_of_start?_eq_some (hm : range.start? = some m) :
    ∃ set ∈ range.sets, set.start? = some m :=
  List.mem_filterMap.1 (mem_of_best?_eq_some hm)

/-- No set of a range starts below the range. -/
theorem exists_start_le (hset : set ∈ range.sets) (hw : set.start? = some w) :
    ∃ m, range.start? = some m ∧ m.toRank ≤ w.toRank := by
  have hmem : w ∈ range.sets.filterMap (·.start?) := List.mem_filterMap.2 ⟨set, hset, hw⟩
  obtain ⟨m, hm⟩ := exists_best? (fun v kept => (compare v kept).isLT)
    (List.ne_nil_of_mem hmem)
  exact ⟨m, hm, OrderDual.toDual_le_toDual.1 (seeks_lowest.le_of_best?_eq_some hm w hmem)⟩

/-- How the search ends: with one of the first two candidates, or with the starting point. -/
theorem minimum?_cases (range : Range) :
    range.admits (.release 0 0 0) = true ∧ range.minimum? = some (.release 0 0 0) ∨
      range.admits .lowest = true ∧ range.minimum? = some .lowest ∨
        range.admits (.release 0 0 0) = false ∧ range.admits .lowest = false ∧
          range.minimum? = range.start?.filter range.admits := by
  rw [minimum?]
  cases range.admits (.release 0 0 0) <;> cases range.admits .lowest <;> simp

theorem admits_of_minimum?_eq_some (hm : range.minimum? = some m) : range.admits m = true := by
  rcases range.minimum?_cases with ⟨hzero, heq⟩ | ⟨hlowest, heq⟩ | ⟨-, -, heq⟩
  · obtain rfl := Option.some.inj (heq.symm.trans hm)
    exact hzero
  · obtain rfl := Option.some.inj (heq.symm.trans hm)
    exact hlowest
  · exact (Option.filter_eq_some_iff.1 (heq.symm.trans hm)).2

/-- What is found is one of the first two candidates, or the starting point of a comparator. -/
theorem exists_start_of_minimum?_eq_some (hm : range.minimum? = some m) :
    m = .release 0 0 0 ∨ m = .lowest ∨
      ∃ set ∈ range.sets, ∃ c ∈ set.comparators, c.start? = some m := by
  rcases range.minimum?_cases with ⟨-, heq⟩ | ⟨-, heq⟩ | ⟨-, -, heq⟩
  · exact Or.inl (Option.some.inj (hm.symm.trans heq))
  · exact Or.inr (Or.inl (Option.some.inj (hm.symm.trans heq)))
  · have hstart := (Option.filter_eq_some_iff.1 (heq.symm.trans hm)).1
    obtain ⟨set, hset, hstart⟩ := exists_of_start?_eq_some hstart
    obtain ⟨c, hc, hstart⟩ := ComparatorSet.exists_of_start?_eq_some hstart
    exact Or.inr (Or.inr ⟨set, hset, c, hc, hstart⟩)

/-- Where the first two candidates are not admitted, each set that admits something has a starting
point. -/
theorem exists_start_of_admits (hzero : range.admits (.release 0 0 0) = false)
    (hlowest : range.admits .lowest = false) (hv : range.admits v = true) :
    ∃ set ∈ range.sets, set.admits range.options.includePrerelease v = true ∧
      ∃ w, set.start? = some w := by
  obtain ⟨set, hset, hadmits⟩ := List.any_eq_true.1 hv
  refine ⟨set, hset, hadmits, ?_⟩
  cases hstart : set.start? with
  | some w => exact ⟨w, rfl⟩
  | none =>
    rcases ComparatorSet.admits_first hstart hadmits with hfirst | hfirst
    · exact absurd (admits_of_mem hset hfirst) (Bool.eq_false_iff.1 hzero)
    · exact absurd (admits_of_mem hset hfirst) (Bool.eq_false_iff.1 hlowest)

/-- **What may be admitted below what is found.**  If `0.0.0` is found these are its own pre-releases,
and otherwise pre-releases that the search passes over. -/
theorem minimum?_le_or (hm : range.minimum? = some m) (hv : range.admits v = true) :
    m.toRank ≤ v.toRank ∨ m = .release 0 0 0 ∧ v.isPrerelease = true ∧ v.core = ⟨0, 0, 0⟩ ∨
      ∃ set ∈ range.sets, set.admits range.options.includePrerelease v = true ∧
        ∃ c ∈ set.comparators, c.PassesOver v := by
  rcases range.minimum?_cases with ⟨-, heq⟩ | ⟨-, heq⟩ | ⟨hzero, hlowest, heq⟩
  · obtain rfl := Option.some.inj (heq.symm.trans hm)
    by_cases hlt : v.toRank < (Version.release 0 0 0).toRank
    · obtain ⟨hpre, hcore⟩ := Version.lt_zero_iff.1 hlt
      exact Or.inr (Or.inl ⟨rfl, hpre, hcore⟩)
    · exact Or.inl (not_lt.1 hlt)
  · obtain rfl := Option.some.inj (heq.symm.trans hm)
    exact Or.inl (Rank.lowest_le _)
  · obtain ⟨set, hset, hadmits, w, hw⟩ := exists_start_of_admits hzero hlowest hv
    obtain ⟨m', hm', hle⟩ := exists_start_le hset hw
    obtain rfl : m' = m :=
      Option.some.inj (hm'.symm.trans (Option.filter_eq_some_iff.1 (heq.symm.trans hm)).1)
    rcases ComparatorSet.start_le_or hw (ComparatorSet.test_of_admits hadmits) with hwv | hpasses
    · exact Or.inl (hle.trans hwv)
    · obtain ⟨c, hc, -, hover⟩ := hpasses
      exact Or.inr (Or.inr ⟨set, hset, hadmits, c, hc, hover⟩)

/-- **No admitted release is below what is found.** -/
theorem minimum?_le_release (hm : range.minimum? = some m) (hv : range.admits v = true)
    (hrelease : v.isPrerelease = false) : (compare m v).isLE = true := by
  have hnot : ¬ v.isPrerelease = true := Bool.eq_false_iff.1 hrelease
  rw [Version.compare_def, Std.isLE_compare]
  rcases minimum?_le_or hm hv with hle | ⟨-, hpre, -⟩ | ⟨_, -, -, _, -, hover⟩
  · exact hle
  · exact absurd hpre hnot
  · exact absurd hover.prerelease hnot

/-- The second set starts lower than the first one, at the patch after its operand. -/
theorem minimum?_le_release_patch : ∃ (range : Range) (m : Version),
    parse ">=2.0.0 || >1.5.0" {} = .ok range ∧ range.minimum? = some m ∧ m.render = "1.5.1" ∧
    range.admits (.release 1 7 0) = true ∧ (compare m (.release 1 7 0)).isLE = true := by
  let written (core : Core) (text : String) : Version :=
    { core, raw := some text, options := { loose := true } }
  let range : Range :=
    { sets := [⟨[.atLeast (written ⟨2, 0, 0⟩ "2.0.0")]⟩,
        ⟨[⟨.greater, written ⟨1, 5, 0⟩ "1.5.0"⟩]⟩] }
  have hm : range.minimum? = some (written ⟨1, 5, 1⟩ "1.5.0") := by decide +kernel
  have hv : range.admits (.release 1 7 0) = true := by decide +kernel
  exact ⟨range, _, by decide +kernel, hm, by decide +kernel, hv, minimum?_le_release hm hv rfl⟩

/-- A set hides what a range admits if it starts the lowest of all sets, and the range admits neither
its starting point nor one of the first two candidates. -/
structure HiddenBy (range : Range) (set : ComparatorSet) (m : Version) : Prop where
  mem : set ∈ range.sets
  start : set.start? = some m
  lowest : ∀ other ∈ range.sets, ∀ w, other.start? = some w → m.toRank ≤ w.toRank
  refused : range.admits m = false
  refused_zero : range.admits (.release 0 0 0) = false
  refused_lowest : range.admits .lowest = false

theorem HiddenBy.minimum?_eq_none (h : range.HiddenBy set m) : range.minimum? = none := by
  rcases range.minimum?_cases with ⟨hzero, -⟩ | ⟨hlowest, -⟩ | ⟨-, -, heq⟩
  · exact absurd hzero (Bool.eq_false_iff.1 h.refused_zero)
  · exact absurd hlowest (Bool.eq_false_iff.1 h.refused_lowest)
  · obtain ⟨m', hm', hle⟩ := exists_start_le h.mem h.start
    obtain ⟨set', hset', hstart'⟩ := exists_of_start?_eq_some hm'
    have hrank : m'.toRank = m.toRank := le_antisymm hle (h.lowest set' hset' m' hstart')
    rw [heq, hm', Option.filter_some, admits_congr hrank, h.refused]
    rfl

/-- If something is admitted and nothing is found, a set hides it. -/
theorem exists_hiddenBy (hv : range.admits v = true) (hnone : range.minimum? = none) :
    ∃ set m, range.HiddenBy set m := by
  rcases range.minimum?_cases with ⟨-, heq⟩ | ⟨-, heq⟩ | ⟨hzero, hlowest, heq⟩
  · exact nomatch heq.symm.trans hnone
  · exact nomatch heq.symm.trans hnone
  · obtain ⟨set', hset', -, w, hw⟩ := exists_start_of_admits hzero hlowest hv
    obtain ⟨m, hm, -⟩ := exists_start_le hset' hw
    obtain ⟨set, hset, hstart⟩ := exists_of_start?_eq_some hm
    refine ⟨set, m, hset, hstart, fun other hother u hu => ?_, ?_, hzero, hlowest⟩
    · obtain ⟨m', hm', hle⟩ := exists_start_le hother hu
      obtain rfl := Option.some.inj (hm.symm.trans hm')
      exact hle
    · rw [heq, hm, Option.filter_some] at hnone
      simpa using hnone

/-- **Found or hidden.**  Of a range that admits something a lowest version is found, and the range
admits it, unless a set hides what the range admits. A set that hides has nothing to offer itself, but
for pre-releases that the search passes over. -/
theorem minimum?_found_or_hidden (hv : range.admits v = true) :
    ((∃ m, range.minimum? = some m ∧ range.admits m = true) ↔ ¬ ∃ set m, range.HiddenBy set m) ∧
      ∀ set m, range.HiddenBy set m → ∀ w,
        set.admits range.options.includePrerelease w = true →
          ∃ c ∈ set.comparators, c.PassesOver w ∧ m = c.version.successor := by
  refine ⟨⟨?_, fun hhidden => ?_⟩, fun set m hhidden w hw => ?_⟩
  · rintro ⟨m, hm, -⟩ ⟨set, m', hhidden⟩
    exact nomatch hm.symm.trans hhidden.minimum?_eq_none
  · cases hm : range.minimum? with
    | none => exact absurd (exists_hiddenBy hv hm) hhidden
    | some m => exact ⟨m, rfl, admits_of_minimum?_eq_some hm⟩
  · rcases ComparatorSet.start_le_or hhidden.start (ComparatorSet.test_of_admits hw) with hle | hpasses
    · have hstart := admits_of_mem hhidden.mem (ComparatorSet.admits_start hhidden.start hw hle)
      exact absurd hstart (Bool.eq_false_iff.1 hhidden.refused)
    · obtain ⟨c, hc, hm, hover⟩ := hpasses
      exact ⟨c, hc, hover, hover.eq_successor hm⟩

/-- The only set of this range starts at `1.2.4` and admits pre-releases of `1.2.4` alone. -/
theorem minimum?_found_or_hidden_between : ∃ range : Range,
    parse ">1.2.3 <1.2.4-5" { includePrerelease := true } = .ok range ∧
    range.admits (.numbered 1 2 4 1) = true ∧ range.minimum? = none ∧
    ∃ set m, range.HiddenBy set m ∧ ∃ c ∈ set.comparators, c.PassesOver (.numbered 1 2 4 1) := by
  let written (core : Core) (preRelease : List Identifier) (text : String) : Version :=
    { core, preRelease, raw := some text,
      options := { loose := true, includePrerelease := true } }
  let set : ComparatorSet := ⟨[⟨.greater, written ⟨1, 2, 3⟩ [] "1.2.3"⟩,
    .below (written ⟨1, 2, 4⟩ [.numeric 5] "1.2.4-5")]⟩
  let range : Range := { sets := [set], options := { includePrerelease := true } }
  have hv : range.admits (.numbered 1 2 4 1) = true := by decide +kernel
  have hnone : range.minimum? = none := by decide +kernel
  obtain ⟨hfound, hhides⟩ := minimum?_found_or_hidden hv
  have hhidden : ∃ set m, range.HiddenBy set m := by
    refine not_not.1 fun h => ?_
    obtain ⟨m, hm, -⟩ := hfound.2 h
    rw [hnone] at hm
    simp at hm
  obtain ⟨other, m, hother⟩ := hhidden
  obtain rfl : other = set := List.mem_singleton.1 hother.mem
  obtain ⟨c, hc, hover, -⟩ := hhides set m hother (.numbered 1 2 4 1) (by decide +kernel)
  exact ⟨range, by decide +kernel, hv, hnone, set, m, hother, c, hc, hover⟩

/-- The first set of this range admits nothing, and it starts at `3.0.0`. It hides the second one. -/
theorem exists_minimum?_eq_none : ∃ range : Range,
    parse ">2 <1 || 5" {} = .ok range ∧ range.admits (.release 5 0 0) = true ∧
    range.minimum? = none :=
  ⟨{ sets := [⟨[.floor false 3 0 0, .ceiling 1 0 0]⟩, ⟨[.floor false 5 0 0, .ceiling 6 0 0]⟩] },
    by decide +kernel, by decide +kernel, by decide +kernel⟩

end Range
end SemanticVersioning
