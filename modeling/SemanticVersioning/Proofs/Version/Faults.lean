import SemanticVersioning.Proofs.Reader.Position
import SemanticVersioning.Proofs.Version.Grammar

/-!
# What is wrong where a version is refused

The readers of versions refuse a text for its numbers alone: a number exceeds the limit, or a strict
numeric identifier begins with a needless zero (`NumberFault`). Either is seen in the text after the
place at which the reader stopped, so it stays a fault whatever stands before.
-/

namespace SemanticVersioning

open Reader Text Fault

/-- What is wrong with a number at the front of a text. -/
inductive NumberFault (after : List Char) : ErrorKind → Prop
  | leadingZero : NumberFault after .invalidVersion
  | tooLarge : maxSafeInteger < Nat.ofDigitChars 10 (after.takeWhile Char.isDigit) 0 →
      NumberFault after (.numericOverflow (String.ofList (after.takeWhile Char.isDigit)))

namespace Reader

variable {F : Fault}

theorem safeValue_eq_error {t : List Char} {kind : ErrorKind} {production : Option Production}
    (h : safeValue t = .error (kind, production)) :
    maxSafeInteger < Nat.ofDigitChars 10 t 0 ∧ kind = .numericOverflow (String.ofList t) := by
  rw [safeValue] at h
  split at h
  case isTrue => cases h
  case isFalse hlarge =>
    obtain ⟨rfl, -⟩ := Prod.mk.inj (Except.error.inj h)
    exact ⟨Nat.not_le.1 hlarge, rfl⟩

theorem digits_staysIn (loose : Bool) : StaysIn F (digits loose) := by
  cases loose with
  | true => exact .charsWhile1 _
  | false =>
    intro s
    by_cases hzero : s.head? = some '0'
    · obtain ⟨r, rfl⟩ := List.head?_eq_some_iff.1 hzero
      exact List.suffix_cons '0' r
    · show (strictDigits s).InText F s
      rw [strictDigits_apply_of_head?_ne hzero]
      exact StaysIn.charsWhile1 _ s

/-- The digits that are read are all that stand there, or else they are a single zero. -/
theorem eq_takeWhile_of_digits {loose : Bool} {s t rest : List Char}
    (h : digits loose s = .read t rest) : t = s.takeWhile Char.isDigit ∨ t = ['0'] := by
  have hscan : charsWhile1 Char.isDigit s = .read t rest → t = s.takeWhile Char.isDigit := by
    intro hread
    obtain ⟨rfl, -, ht, hrest⟩ := charsWhile1_eq_read_iff.1 hread
    exact (takeWhile_append_eq ht hrest).symm
  cases loose with
  | true => exact Or.inl (hscan h)
  | false =>
    have hstrict : strictDigits s = .read t rest := h
    by_cases hzero : s.head? = some '0'
    · obtain ⟨r, rfl⟩ := List.head?_eq_some_iff.1 hzero
      exact Or.inr (Outcome.read.inj hstrict).1.symm
    · rw [strictDigits_apply_of_head?_ne hzero] at hstrict
      exact Or.inl (hscan hstrict)

theorem number_staysIn (loose : Bool) : StaysIn (ofAfter NumberFault) (number loose) := by
  refine .checked (digits_staysIn loose) fun {s t rest kind production} hread hcheck => ?_
  obtain ⟨hlarge, rfl⟩ := safeValue_eq_error hcheck
  rcases eq_takeWhile_of_digits hread with rfl | rfl
  · exact .tooLarge hlarge
  · exact absurd hlarge (by decide)

theorem core_staysIn (loose : Bool) : StaysIn (ofAfter NumberFault) (core loose) := by
  have hF := shifts_ofAfter NumberFault
  refine .within _ ?_
  refine .bind hF (number_staysIn loose) fun _ => .bind hF (.literal _) fun _ => ?_
  refine .bind hF (number_staysIn loose) fun _ => .bind hF (.literal _) fun _ => ?_
  exact .bind hF (number_staysIn loose) fun _ => .pure _

/-- A word of digits is all the digits that stand there. -/
theorem identifier_staysIn (loose : Bool) : StaysIn (ofAfter NumberFault) (identifier loose) := by
  refine .checked (.charsWhile1 _) fun {s w rest kind production} hread hcheck => ?_
  obtain ⟨rfl, -, hword, hrest⟩ := charsWhile1_eq_read_iff.1 hread
  by_cases hdigits : ∀ c ∈ w, c.isDigit = true
  · by_cases hlead : loose = true ∨ w = ['0'] ∨ w.head? ≠ some '0'
    · rw [identifierOfWord_of_digits hdigits hlead] at hcheck
      have hw : (w ++ rest).takeWhile Char.isDigit = w :=
        takeWhile_append_eq hdigits (hrest.mono fun _ => isWordChar_of_isDigit)
      cases hvalue : safeValue w with
      | ok n =>
        rw [hvalue] at hcheck
        cases hcheck
      | error e =>
        rw [hvalue] at hcheck
        obtain rfl := Except.error.inj hcheck
        obtain ⟨hlarge, rfl⟩ := safeValue_eq_error hvalue
        have hfault : NumberFault (w ++ rest) (.numericOverflow
            (String.ofList ((w ++ rest).takeWhile Char.isDigit))) := .tooLarge (hw.symm ▸ hlarge)
        rwa [hw] at hfault
    · rw [identifierOfWord_of_leadingZero hdigits hlead] at hcheck
      obtain ⟨rfl, -⟩ := Prod.mk.inj (Except.error.inj hcheck)
      exact .leadingZero
  · rw [identifierOfWord_of_not_digits hdigits] at hcheck
    cases hcheck

theorem dash_staysIn (hF : Shifts F) (loose : Bool) : StaysIn F (dash loose) := by
  cases loose with
  | true => exact .bind hF (.optional (.literal _)) fun _ => .pure _
  | false => exact .literal _

theorem preRelease_staysIn (loose : Bool) : StaysIn (ofAfter NumberFault) (preRelease loose) := by
  have hF := shifts_ofAfter NumberFault
  refine .bind hF (dash_staysIn hF loose) fun _ => .within _ ?_
  exact .sepBy1_of_shifts hF (.literal _) (identifier_staysIn loose)

theorem buildMetadata_staysIn (hF : Shifts F) : StaysIn F buildMetadata := by
  refine .within _ (.bind hF (.literal _) fun _ => ?_)
  exact .sepBy1_of_shifts hF (.literal _) (.map _ (.charsWhile1 _))

theorem qualifier_staysIn (loose : Bool) : StaysIn (ofAfter NumberFault) (qualifier loose) := by
  have hF := shifts_ofAfter NumberFault
  refine .bind hF (.optional (preRelease_staysIn loose)) fun _ => ?_
  exact .bind hF (.optional (buildMetadata_staysIn hF)) fun _ => .pure _

theorem leaders_staysIn (hF : Shifts F) (loose : Bool) : StaysIn F (leaders loose) := by
  cases loose with
  | true => exact .bind hF (.charsWhile _) fun _ => .pure _
  | false => exact .pure _

/-- **A version is refused for one of its numbers only.** -/
theorem version_staysIn (loose : Bool) : StaysIn (ofAfter NumberFault) (version loose) := by
  have hF := shifts_ofAfter NumberFault
  refine .bind hF (leaders_staysIn hF loose) fun _ => .bind hF (core_staysIn loose) fun _ => ?_
  exact .bind hF (qualifier_staysIn loose) fun _ => .pure _

end Reader
end SemanticVersioning
