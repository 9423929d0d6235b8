import SemanticVersioning.Proofs.Range.Minimum
import SemanticVersioning.Proofs.Range.RoundTrip

/-!
# The text of the lowest version

A version remembers the text it was read from. The operands of comparators do so too if they were
written, while the ends of stretches are made up and have no text. The lowest version of a range is
an operand, the successor of one, or one of two made-up candidates. What is said here is about the
first two, and about the text that they bring along.

* The text of an operand is read as the operand (`Range.exists_parse_raw`), but for the build
  metadata, which a range drops.
* A successor keeps the text of the operand that it follows. So the text of the lowest version is
  that of a lower version whenever the search ends at a successor, and only then
  (`Range.minimum?_raw_iff`).
-/

namespace SemanticVersioning

open Text

/-! ## Attachments of successors -/

namespace Version

theorem raw_successor (v : Version) : v.successor.raw = v.raw := by
  rw [successor]
  split <;> rfl

theorem options_successor (v : Version) : v.successor.options = v.options := by
  rw [successor]
  split <;> rfl

/-- A successor has no build metadata, whatever its predecessor has. -/
theorem successor_withoutBuild (v : Version) : v.withoutBuild.successor = v.successor := rfl

theorem compare_successor (v : Version) : compare v v.successor = .lt :=
  compare_eq_lt_iff_toRank.2 v.lt_successor

theorem samePrecedence_successor (v : Version) : v.samePrecedence v.successor = false :=
  Bool.eq_false_iff.2 fun h => v.lt_successor.ne (samePrecedence_iff.1 h)

theorem samePrecedence_withoutBuild (v : Version) : v.samePrecedence v.withoutBuild = true :=
  samePrecedence_iff.2 rfl

end Version

/-! ## Texts of operands -/

/-- The version of a comparator has a text only if it was written, and is then read from it. -/
theorem Comparator.DrawnFrom.exists_parse_raw {includePrerelease : Bool} {options : Options}
    {u : List Char} {o : Operand} {c : Comparator} {t : String}
    (hc : c.DrawnFrom includePrerelease (o.resolve options)) (ho : WritesOperand u o)
    (ht : c.version.raw = some t) (hlength : t.utf8ByteSize ≤ maxLength) :
    ∃ w, Version.parse t c.version.options = .ok w ∧ c.version = w.withoutBuild := by
  cases hc with
  | floor =>
    cases includePrerelease with
    | true => exact nomatch ht
    | false => exact nomatch ht
  | ceiling => exact nomatch ht
  | written hv =>
    obtain ⟨w, hw, rfl⟩ := Operand.resolve_eq_full_iff.1 hv
    obtain rfl : o.text = t := Option.some.inj ht
    rw [← utf8Length_toList] at hlength
    have hversion : o.version? options = some _ := Operand.version?_eq_some_iff.2 ⟨w, hw, rfl⟩
    exact ⟨_, ho.parse_eq_ok hversion hlength, rfl⟩

namespace Range

variable {text t : String} {options : Options} {range : Range} {set : ComparatorSet}
  {c : Comparator} {m : Version}

/-- **The text of an operand is read as the operand**, up to the build metadata. -/
theorem exists_parse_raw (h : parse text options = .ok range) (hset : set ∈ range.sets)
    (hc : c ∈ set.comparators) (ht : c.version.raw = some t) (hlength : t.utf8ByteSize ≤ maxLength) :
    ∃ w, Version.parse t c.version.options = .ok w ∧ c.version = w.withoutBuild := by
  obtain ⟨-, -, o, -, ⟨u, ho⟩, hdrawn⟩ := exists_drawnFrom_of_parse h hset hc
  exact hdrawn.exists_parse_raw ho ht hlength

/-- The text of the successor of an operand is read as the version that it follows. -/
theorem exists_parse_raw_successor (h : parse text options = .ok range) (hset : set ∈ range.sets)
    (hc : c ∈ set.comparators) (hm : m = c.version.successor) (ht : m.raw = some t)
    (hlength : t.utf8ByteSize ≤ maxLength) :
    ∃ w, Version.parse t m.options = .ok w ∧ m = w.successor := by
  subst hm
  rw [Version.raw_successor] at ht
  obtain ⟨w, hparse, hw⟩ := exists_parse_raw h hset hc ht hlength
  refine ⟨w, ?_, ?_⟩
  · rwa [Version.options_successor]
  · rw [hw, Version.successor_withoutBuild]

/-! ## The lowest version -/

/-- A lowest version with a text is an operand, or the successor of one. -/
theorem exists_start_of_minimum?_raw (hm : range.minimum? = some m) (ht : m.raw = some t) :
    ∃ set ∈ range.sets, ∃ c ∈ set.comparators, c.start? = some m := by
  rcases exists_start_of_minimum?_eq_some hm with rfl | rfl | hstart
  · exact nomatch ht
  · exact nomatch ht
  · exact hstart

/-- **Whose text the lowest version has.**  If it has one, and not too long a one, the text is read
under the options of the lowest version. What is read is the lowest version itself, up to the build
metadata, unless it is the successor of an operand of some `>`. Then it is that operand, and stands
below. -/
theorem minimum?_raw_iff (h : parse text options = .ok range) (hm : range.minimum? = some m)
    (ht : m.raw = some t) (hlength : t.utf8ByteSize ≤ maxLength) :
    ∃ w, Version.parse t m.options = .ok w ∧
      (w.samePrecedence m = true ↔ ∀ set ∈ range.sets, ∀ c ∈ set.comparators,
        c.operator = .greater → c.version.successor ≠ m) ∧
      (w.samePrecedence m = true → m = w.withoutBuild) ∧
      (w.samePrecedence m = false → m = w.successor ∧ compare w m = .lt) := by
  obtain ⟨set, hset, c, hc, hstart⟩ := exists_start_of_minimum?_raw hm ht
  rcases Comparator.start?_eq_some_iff.1 hstart with ⟨hop, hsuccessor⟩ | ⟨-, hoperand⟩
  · obtain ⟨w, hparse, hw⟩ := exists_parse_raw_successor h hset hc hsuccessor ht hlength
    have hdiffers : w.samePrecedence m = false := hw ▸ w.samePrecedence_successor
    refine ⟨w, hparse, ?_, fun heq => ?_, fun _ => ⟨hw, hw ▸ w.compare_successor⟩⟩
    · refine iff_of_false (Bool.eq_false_iff.1 hdiffers) fun hnone => ?_
      exact hnone set hset c hc hop hsuccessor.symm
    · exact absurd heq (Bool.eq_false_iff.1 hdiffers)
  · obtain ⟨w, hparse, hw⟩ := exists_parse_raw h hset hc (hoperand ▸ ht) hlength
    rw [← hoperand] at hparse hw
    have hsame : w.samePrecedence m = true := hw ▸ w.samePrecedence_withoutBuild
    refine ⟨w, hparse, ?_, fun _ => hw, fun hne => ?_⟩
    · -- a successor with this text would stand above what the text is read as
      refine iff_of_true hsame fun set' hset' c' hc' _ hsuccessor => ?_
      obtain ⟨w', hparse', hw'⟩ :=
        exists_parse_raw_successor h hset' hc' hsuccessor.symm ht hlength
      obtain rfl : w = w' := Except.ok.inj (hparse.symm.trans hparse')
      exact Bool.false_ne_true (w.samePrecedence_successor.symm.trans (hw' ▸ hsame))
    · exact absurd hsame (Bool.eq_false_iff.1 hne)

/-- The first set starts lower than the second one, at an operand with build metadata in its text. -/
theorem minimum?_raw_iff_build : ∃ (range : Range) (m w : Version),
    parse ">=1.2.3+b || >2.0.0" {} = .ok range ∧ range.minimum? = some m ∧
      m.raw = some "1.2.3+b" ∧ Version.parse "1.2.3+b" m.options = .ok w ∧ w.build = ["b"] ∧
        w.samePrecedence m = true ∧ m = w.withoutBuild := by
  let written (core : Core) (text : String) : Version :=
    { core, raw := some text, options := { loose := true } }
  let m : Version := written ⟨1, 2, 3⟩ "1.2.3+b"
  let w : Version := { m with build := ["b"] }
  let range : Range :=
    { sets := [⟨[.atLeast m]⟩, ⟨[⟨.greater, written ⟨2, 0, 0⟩ "2.0.0"⟩]⟩] }
  have hrange : parse ">=1.2.3+b || >2.0.0" {} = .ok range := by decide +kernel
  have hm : range.minimum? = some m := by decide +kernel
  have hparse : Version.parse "1.2.3+b" m.options = .ok w := by decide +kernel
  have hsame : w.samePrecedence m = true := by decide
  obtain ⟨w', hparse', -, hwhole, -⟩ := minimum?_raw_iff hrange hm rfl (by decide)
  obtain rfl : w = w' := Except.ok.inj (hparse.symm.trans hparse')
  exact ⟨range, m, w, hrange, hm, rfl, hparse, rfl, hsame, hwhole hsame⟩

/-- The lowest version of `>1.2.3` is `1.2.4`, and its text is `1.2.3`. -/
theorem exists_minimum?_raw_lower : ∃ (range : Range) (m w : Version),
    parse ">1.2.3" {} = .ok range ∧ range.minimum? = some m ∧ m.render = "1.2.4" ∧
      m.raw = some "1.2.3" ∧ Version.parse "1.2.3" m.options = .ok w ∧
        w.samePrecedence m = false := by
  let w : Version := { core := ⟨1, 2, 3⟩, raw := some "1.2.3", options := { loose := true } }
  let range : Range := { sets := [⟨[⟨.greater, w⟩]⟩] }
  exact ⟨range, w.successor, w, by decide +kernel, by decide +kernel, by decide +kernel, rfl,
    by decide +kernel, by decide⟩

end Range
end SemanticVersioning
