import SemanticVersioning.Proofs.Text.Blank
import SemanticVersioning.Proofs.Version.Grammar

/-!
# Whole texts as versions

`Version.parse` reads exactly the texts that the notation of versions has, within the limit on
their length, and reads from them what the notation says they write. `parse_eq_ok_iff` says so for
both notations at once; `parse_strict_eq_ok_iff` is the strict one, in which nothing is stripped
from the text.
-/

namespace SemanticVersioning

open Reader

namespace Text

/-- The bytes of a text are counted as its encoding has them. -/
theorem utf8Length_toList (text : String) : utf8Length text.toList = text.utf8ByteSize := by
  have hlist : ∀ s : List Char, utf8Length s = (String.ofList s).utf8ByteSize := by
    intro s
    induction s with
    | nil => rfl
    | cons c s ih =>
      rw [utf8Length_cons, ih, String.ofList_cons, String.utf8ByteSize_append,
        String.utf8ByteSize_singleton]
  rw [hlist, String.ofList_toList]

end Text

theorem toNat_of_isQualifierChar {c : Char} (h : isQualifierChar c = true) :
    32 < c.toNat ∧ c.toNat < 133 := by
  simp only [isQualifierChar, isPartChar, isWordChar, Bool.or_eq_true, beq_iff_eq] at h
  rcases h with ((hc | rfl) | rfl) | rfl
  · have hbounds := toNat_of_isAlphanum hc
    omega
  · decide
  · decide
  · decide

/-- Nothing of a version is a blank. -/
theorem isQualifierChar_apart_isBlank : Text.Apart isQualifierChar Text.isBlank :=
  apart_isBlank fun _ => toNat_of_isQualifierChar

namespace Version

/-- A text is a version if it is short enough and its body writes one. -/
theorem parse_eq_ok_iff {text : String} {options : Options} {v : Version} :
    parse text options = .ok v ↔ Text.utf8Length text.toList ≤ maxLength ∧
      WritesVersion options.loose (body options.loose text.toList) v.core v.preRelease v.build ∧
        v.raw = some text ∧ v.options = options := by
  rw [parse]
  split
  case isTrue hlong =>
    constructor
    · intro h
      cases h
    · rintro ⟨hshort, -⟩
      exact absurd hshort (Nat.not_le.2 hlong)
  case isFalse hlong =>
    have hshort : Text.utf8Length text.toList ≤ maxLength := Nat.not_lt.1 hlong
    constructor
    · intro h
      split at h
      case h_1 w hrun =>
        obtain ⟨t, core, is, parts, hbody, ht, rfl⟩ := version_sound (run_eq_ok_iff.1 hrun)
        rw [List.append_nil] at hbody
        cases h
        exact ⟨hshort, hbody ▸ ht, rfl, rfl⟩
      case h_2 =>
        exact nomatch h
    · rintro ⟨-, ht, hraw, hoptions⟩
      rw [run_eq_ok_iff.2 (version_complete ht)]
      obtain ⟨⟨core, is⟩, parts, raw, o⟩ := v
      obtain rfl : raw = some text := hraw
      obtain rfl : o = options := hoptions
      rfl

/-- **The strict notation is read exactly.**  A text is a version if it has at most 256 bytes and
is three numbers joined by points, with an optional pre-release and optional build metadata after
them. What is read are the numbers and identifiers as written, and the text. -/
theorem parse_strict_eq_ok_iff {text : String} {v : Version} :
    parse text {} = .ok v ↔ text.utf8ByteSize ≤ maxLength ∧
      WritesVersion false text.toList v.core v.preRelease v.build ∧
        v.raw = some text ∧ v.options = {} := by
  rw [parse_eq_ok_iff, Text.utf8Length_toList]
  rfl

end Version
end SemanticVersioning
