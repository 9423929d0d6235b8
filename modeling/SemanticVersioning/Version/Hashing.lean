import SemanticVersioning.Version.Rank

/-!
# What a hasher is given

A rank is handed to a hasher piece by piece: the numbers of the core, how many identifiers the
pre-release has, and the identifiers one after the other. An identifier is preceded by a number for
its kind.
-/

namespace SemanticVersioning

/-- A piece of data for a hasher. -/
inductive HashInput where
  | number (value : Nat)
  | text (value : String)
deriving DecidableEq, Hashable, Repr

/-- The pieces of an identifier: its kind, and its number or text. -/
def Identifier.hashInputs : Identifier → List HashInput
  | numeric value => [.number 0, .number value]
  | alphanumeric text => [.number 1, .text text]

namespace Rank

/-- The pieces of a rank. -/
def hashInputs (r : Rank) : List HashInput :=
  .number r.core.major :: .number r.core.minor :: .number r.core.patch ::
    .number r.preRelease.length :: r.preRelease.flatMap Identifier.hashInputs

theorem flatMap_hashInputs_inj {is js : List Identifier} :
    is.flatMap Identifier.hashInputs = js.flatMap Identifier.hashInputs ↔ is = js := by
  induction is generalizing js with
  | nil =>
    cases js with
    | nil => simp
    | cons j js => cases j <;> simp [Identifier.hashInputs]
  | cons i is ih =>
    cases js with
    | nil => cases i <;> simp [Identifier.hashInputs]
    | cons j js => cases i <;> cases j <;> simp [Identifier.hashInputs, ih]

/-- The pieces tell a rank. -/
theorem hashInputs_inj {r s : Rank} : r.hashInputs = s.hashInputs ↔ r = s := by
  constructor
  · intro h
    simp only [hashInputs, List.cons.injEq, HashInput.number.injEq, flatMap_hashInputs_inj] at h
    obtain ⟨hmajor, hminor, hpatch, -, hpre⟩ := h
    obtain ⟨⟨_, _, _⟩, _⟩ := r
    obtain ⟨⟨_, _, _⟩, _⟩ := s
    simp_all
  · rintro rfl
    rfl

end Rank
end SemanticVersioning
