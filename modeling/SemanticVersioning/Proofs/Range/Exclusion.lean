import Mathlib.Control.Monad.Basic
import SemanticVersioning.Proofs.Range.Expansion
import SemanticVersioning.Proofs.Range.Partition

/-!
# The exclusion of pre-releases, on the text

Unless all pre-releases are included, a set admits a pre-release only if one of its comparators
names a pre-release of the same core. The comparators are not what is written, though, and many of
them are made up: each ceiling is itself a pre-release, the first one of its core. So the rule as it
is applied could let in more than the text asks for.

It does not (`Range.admits_prerelease_iff`). A ceiling admits nothing of its own core, so where it
names a pre-release of the core of a version, that version does not meet it
(`Comparator.DrawnFrom.eq_full_of_names`). A floor names no pre-release while pre-releases are not
all included. What is left are the versions of complete operands, and none of these is lost.
-/

namespace SemanticVersioning

open Text

/-- Whether an operand is complete and gives a pre-release of a core. -/
def Operand.NamesPrereleaseOf (o : Operand) (core : Core) : Prop :=
  ∃ w, o.extent = .full w ∧ w.isPrerelease = true ∧ w.core = core

/-- The version of a complete operand has its own pre-release, whatever else is put into it. -/
theorem Operand.namesPrereleaseOf_iff {o : Operand} {core : Core} {options : Options} :
    o.NamesPrereleaseOf core ↔ ∃ v, o.resolve options = .full v ∧ v.isPrerelease = true ∧
      v.core = core := by
  simp only [resolve_eq_full_iff]
  constructor
  · rintro ⟨w, hw, hpre, hcore⟩
    exact ⟨_, ⟨w, hw, rfl⟩, hpre, hcore⟩
  · rintro ⟨_, ⟨w, hw, rfl⟩, hpre, hcore⟩
    exact ⟨w, hw, hpre, hcore⟩

theorem Comparator.namesPrereleaseOf_iff {c : Comparator} {core : Core} :
    c.namesPrereleaseOf core = true ↔ c.version.isPrerelease = true ∧ c.version.core = core := by
  simp [namesPrereleaseOf]

/-- **A made-up comparator lets no pre-release in.**  Among the comparators that a version meets,
only that of a complete operand can name a pre-release of its core. -/
theorem Comparator.DrawnFrom.eq_full_of_names {e : Extent} {c : Comparator}
    (hc : c.DrawnFrom false e) {v : Version} (htest : c.test v = true)
    (hnames : c.namesPrereleaseOf v.core = true) : e = .full c.version := by
  obtain ⟨hpre, hcore⟩ := namesPrereleaseOf_iff.1 hnames
  cases hc with
  | floor => exact nomatch hpre
  | @ceiling major minor patch _ =>
    have hlt : compare v.core ⟨major, minor, patch⟩ = .lt := test_ceiling.1 htest
    have heq : compare v.core ⟨major, minor, patch⟩ = .eq := Std.compare_eq_iff_eq.2 hcore.symm
    exact nomatch hlt.symm.trans heq
  | written he => exact he

/-- A set of written terms admits a pre-release if the version meets each comparator, and an operand
of the terms names a pre-release of its core. -/
theorem ComparatorSet.admits_written_iff {options : Options} {segment : List (Term Operand)}
    {v : Version} (hoptions : options.includePrerelease = false) (hv : v.isPrerelease = true) :
    ComparatorSet.admits ⟨segment.flatMap (Term.comparators options)⟩ options.includePrerelease v =
        true ↔
      (∀ x ∈ segment, ∀ c ∈ x.comparators options, c.test v = true) ∧
        ∃ x ∈ segment, ∃ o ∈ x.operands, o.NamesPrereleaseOf v.core := by
  have hpermits : ComparatorSet.permits ⟨segment.flatMap (Term.comparators options)⟩ v = true ↔
      ∃ x ∈ segment, ∃ c ∈ x.comparators options, c.namesPrereleaseOf v.core = true := by
    simp only [permits, hv, Bool.not_true, Bool.false_or, List.any_eq_true, List.mem_flatMap]
    constructor
    · rintro ⟨c, ⟨x, hx, hc⟩, hnames⟩
      exact ⟨x, hx, c, hc, hnames⟩
    · rintro ⟨x, hx, c, hc, hnames⟩
      exact ⟨c, ⟨x, hx, hc⟩, hnames⟩
  have htest : ComparatorSet.test ⟨segment.flatMap (Term.comparators options)⟩ v = true ↔
      ∀ x ∈ segment, ∀ c ∈ x.comparators options, c.test v = true := by
    simp only [test, List.all_eq_true, List.mem_flatMap]
    constructor
    · intro h x hx c hc
      exact h c ⟨x, hx, hc⟩
    · rintro h c ⟨x, hx, hc⟩
      exact h x hx c hc
  rw [admits, hoptions, Bool.false_or, Bool.and_eq_true, hpermits, htest]
  refine and_congr_right fun hall => ?_
  constructor
  · rintro ⟨x, hx, c, hc, hnames⟩
    obtain ⟨o, ho, hdrawn⟩ := Term.exists_drawnFrom_of_mem_comparators hc
    rw [hoptions] at hdrawn
    have hfull := hdrawn.eq_full_of_names (hall x hx c hc) hnames
    obtain ⟨hpre, hcore⟩ := Comparator.namesPrereleaseOf_iff.1 hnames
    exact ⟨x, hx, o, ho, Operand.namesPrereleaseOf_iff.2 ⟨c.version, hfull, hpre, hcore⟩⟩
  · rintro ⟨x, hx, o, ho, hnames⟩
    obtain ⟨w, hw, hpre, hcore⟩ := Operand.namesPrereleaseOf_iff.1 hnames
    obtain ⟨c, hc, rfl⟩ := Term.exists_mem_comparators_of_full ho hw
    exact ⟨x, hx, c, hc, Comparator.namesPrereleaseOf_iff.2 ⟨hpre, hcore⟩⟩

/-- **Pre-releases are excluded by what is written.**  Let a range be read from a text, and let not
all pre-releases be included. The range admits a pre-release exactly if there is a segment of the
text of which it meets each comparator, and in which an operand is written that is itself a
pre-release of the same core. No made-up comparator of any segment takes the place of such an
operand: one that the version meets, and that names a pre-release of its core, is over an operand
of its own term. -/
theorem Range.admits_prerelease_iff {text : String} {options : Options} {range : Range}
    (hrange : Range.parse text options = .ok range) (hoptions : options.includePrerelease = false)
    {v : Version} (hv : v.isPrerelease = true) :
    ∃ alternatives : Alternatives Operand, WritesAlternatives (trim text.toList) alternatives ∧
      (range.admits v = true ↔ ∃ segment ∈ alternatives.segments,
        (∀ x ∈ segment, ∀ c ∈ x.comparators options, c.test v = true) ∧
          ∃ x ∈ segment, ∃ o ∈ x.operands, o.NamesPrereleaseOf v.core) ∧
      ∀ segment ∈ alternatives.segments, ∀ x ∈ segment, ∀ c ∈ x.comparators options,
        c.test v = true → c.namesPrereleaseOf v.core = true →
          ∃ o ∈ x.operands, o.resolve options = .full c.version := by
  obtain ⟨alternatives, htext, rfl⟩ := Range.parse_eq_ok_iff.1 hrange
  refine ⟨alternatives, htext, ?_, ?_⟩
  · rw [Range.admits, Range.ofAlternatives_sets, List.any_map, List.any_eq_true]
    exact exists_congr fun segment =>
      and_congr_right fun _ => ComparatorSet.admits_written_iff hoptions hv
  · intro segment _ x _ c hc htest hnames
    obtain ⟨o, ho, hdrawn⟩ := Term.exists_drawnFrom_of_mem_comparators hc
    rw [hoptions] at hdrawn
    exact ⟨o, ho, hdrawn.eq_full_of_names htest hnames⟩

/-- The pre-release `1.2.3-beta` meets the comparators of both segments. The second one is where
`1.2.3-alpha` is written, and without it nothing would be admitted. -/
theorem Range.admits_prerelease_iff_beta : ∃ range : Range,
    Range.parse "1.x || ~1.2.3-alpha" {} = .ok range ∧
    range.admits { core := ⟨1, 2, 3⟩, preRelease := [.alphanumeric "beta"] } = true ∧
    ∃ alternatives : Alternatives Operand,
      WritesAlternatives (trim "1.x || ~1.2.3-alpha".toList) alternatives ∧
        ∃ segment ∈ alternatives.segments, ∃ x ∈ segment, ∃ o ∈ x.operands,
          o.NamesPrereleaseOf ⟨1, 2, 3⟩ := by
  let v : Version := { core := ⟨1, 2, 3⟩, preRelease := [.alphanumeric "beta"] }
  let alpha : Version :=
    { core := ⟨1, 2, 3⟩, preRelease := [.alphanumeric "alpha"], raw := some "1.2.3-alpha",
      options := { loose := true } }
  let range : Range :=
    { sets := [⟨[.floor false 1 0 0, .ceiling 2 0 0]⟩, ⟨[.atLeast alpha, .ceiling 1 3 0]⟩] }
  have hrange : Range.parse "1.x || ~1.2.3-alpha" {} = .ok range := by decide +kernel
  have hadmits : range.admits v = true := by decide +kernel
  obtain ⟨alternatives, htext, hiff, -⟩ := Range.admits_prerelease_iff hrange rfl (v := v) rfl
  obtain ⟨segment, hsegment, -, hnames⟩ := hiff.1 hadmits
  exact ⟨range, hrange, hadmits, alternatives, htext, segment, hsegment, hnames⟩

end SemanticVersioning
