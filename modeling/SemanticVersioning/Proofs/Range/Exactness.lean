import SemanticVersioning.Proofs.Range.Grammar

/-!
# Whole texts as ranges

`Range.parse` reads exactly the texts whose bodies the notation of ranges has
(`Range.parse_eq_ok_iff`). Nothing of the text is left over, no text of the notation is refused, and
the sets of the range are those of the alternatives as written, one for each segment.

Since every text that writes alternatives is read, and reading has one result, no text writes two
different lists of alternatives (`WritesAlternatives.unique`).
-/

namespace SemanticVersioning

open Reader Text

theorem Text.avoids_isLayout_trim (s : List Char) : Avoids isLayout (trim s) := by
  have hblank : Avoids isBlank (trim s) := avoids_dropWhile isBlank (trimEnd s)
  exact hblank.mono fun c hc => isBlank_of_isLayout hc

/-- A text is read as alternatives if its body writes them. -/
theorem Alternatives.parse_eq_ok_iff {text : String} {alternatives : Alternatives Operand} :
    Alternatives.parse text = .ok alternatives ↔
      WritesAlternatives (trim text.toList) alternatives := by
  have hlayout : Avoids isLayout (trim text.toList) := avoids_isLayout_trim text.toList
  unfold Alternatives.parse
  constructor
  · intro h
    split at h
    case h_1 a hrun =>
      obtain rfl := Except.ok.inj h
      obtain ⟨t, htext, ht⟩ := alternatives_sound hlayout (run_eq_ok_iff.1 hrun)
      rw [List.append_nil] at htext
      rwa [htext]
    case h_2 =>
      exact nomatch h
  · intro ht
    rw [run_eq_ok_iff.2 (alternatives_complete ht hlayout)]

/-- The notation of ranges is unambiguous. -/
theorem WritesAlternatives.unique {t : List Char} {a b : Alternatives Operand}
    (ha : WritesAlternatives t a) (hb : WritesAlternatives t b) (ht : Avoids isLayout t) :
    a = b := by
  have hread := (alternatives_complete ha ht).symm.trans (alternatives_complete hb ht)
  exact (Outcome.read.inj hread).1

namespace Range

/-- A text is read as the range of the alternatives that its body writes. -/
theorem parse_eq_ok_iff {text : String} {options : Options} {range : Range} :
    parse text options = .ok range ↔ ∃ alternatives : Alternatives Operand,
      WritesAlternatives (trim text.toList) alternatives ∧
        range = ofAlternatives options (alternatives.map (Operand.resolve options)) := by
  rw [parse]
  cases hparse : Alternatives.parse text with
  | error e =>
    constructor
    · intro h
      exact nomatch h
    · rintro ⟨alternatives, ht, -⟩
      rw [Alternatives.parse_eq_ok_iff.2 ht] at hparse
      exact nomatch hparse
  | ok alternatives =>
    constructor
    · intro h
      obtain rfl := Except.ok.inj h
      exact ⟨alternatives, Alternatives.parse_eq_ok_iff.1 hparse, rfl⟩
    · rintro ⟨alternatives', ht, rfl⟩
      obtain rfl := Except.ok.inj (hparse.symm.trans (Alternatives.parse_eq_ok_iff.2 ht))
      rfl

theorem ofAlternatives_sets (options : Options) (alternatives : Alternatives Operand) :
    (ofAlternatives options (alternatives.map (Operand.resolve options))).sets =
      alternatives.segments.map fun segment =>
        ⟨segment.flatMap fun term =>
          (term.map (Operand.resolve options)).expand options.includePrerelease⟩ := by
  simp only [ofAlternatives, Alternatives.map, List.map_map, Function.comp_def, List.flatMap_map]

/-- **The notation of ranges is read exactly.**  A text is a range if its body writes alternatives.
The range has one set for each segment, in order, and a set has the comparators of the terms of its
segment, one term after the other. -/
theorem parse_eq_ok_iff_writesAlternatives {text : String} {options : Options} {range : Range} :
    parse text options = .ok range ↔ ∃ alternatives : Alternatives Operand,
      WritesAlternatives (trim text.toList) alternatives ∧
        range.sets = (alternatives.segments.map fun segment =>
          ⟨segment.flatMap fun term =>
            (term.map (Operand.resolve options)).expand options.includePrerelease⟩) ∧
        range.options = options := by
  rw [parse_eq_ok_iff]
  constructor
  · rintro ⟨alternatives, ht, rfl⟩
    exact ⟨alternatives, ht, ofAlternatives_sets options alternatives, rfl⟩
  · rintro ⟨alternatives, ht, hsets, hoptions⟩
    refine ⟨alternatives, ht, ?_⟩
    rw [← ofAlternatives_sets] at hsets
    obtain ⟨sets, o⟩ := range
    obtain rfl : sets = _ := hsets
    obtain rfl : o = options := hoptions
    rfl

end Range
end SemanticVersioning
