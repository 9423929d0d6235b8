import SemanticVersioning.Proofs.Range.Embedding
import SemanticVersioning.Proofs.Range.Partition

/-!
# What a caret admits

A caret asks for the versions from its operand on that agree with it up to its first number other than
zero. The expansion says so by a ceiling, and where the ceiling stands depends on which numbers of the
operand are zero.

`Extent.HeldByCaret` says the same of the numbers themselves and names no ceiling, and the two agree
(`Extent.test_caret`). That a version is below the ceiling says nothing of its lower numbers. But it is
not below the operand either, so its core is not below that of the operand, and between the two there
is no room for another number in front.

As in `Extent.test_compared` the versions are releases, or all pre-releases are included.
-/

namespace SemanticVersioning

open Text

/-- Whether a core agrees with another one up to the first number of it that is not zero. -/
def Core.AgreesUpToNonzero (a b : Core) : Prop :=
  a.major = b.major ∧
    (b.major = 0 → a.minor = b.minor ∧ (b.minor = 0 → a.patch = b.patch))

namespace Extent

/-- Whether a version stands from an operand on and agrees with it up to its first number other than
zero. A number that is not given cannot be disagreed with, and neither can one after it. -/
def HeldByCaret (v : Version) : Extent → Prop
  | any => True
  | major M => v.core.major = M
  | minor M m => (compare v.core ⟨M, m, 0⟩).isGE = true ∧
      v.core.major = M ∧ (M = 0 → v.core.minor = m)
  | full w => (compare v w).isGE = true ∧ v.core.AgreesUpToNonzero w.core

/-- **The ceiling of a caret is where its operand is disagreed with.** -/
theorem test_caret {v : Version} {includePrerelease : Bool}
    (hv : v.isPrerelease = false ∨ includePrerelease = true) (e : Extent) :
    (e.caret includePrerelease).all (·.test v) = true ↔ e.HeldByCaret v := by
  cases e with
  | any => simp [caret, HeldByCaret]
  | major M =>
    simp only [caret, HeldByCaret, List.all_cons, List.all_nil, Bool.and_true, Bool.and_eq_true,
      Comparator.test_floor hv, Comparator.test_ceiling, Core.compare_eq_lt_iff]
    omega
  | minor M m =>
    cases M <;>
      simp only [caret, HeldByCaret, List.all_cons, List.all_nil, Bool.and_true, Bool.and_eq_true,
        Comparator.test_floor hv, Comparator.test_ceiling, Ordering.isGE_iff_ne_lt,
        Core.compare_eq_lt_iff, true_imp_iff, Nat.add_one_ne_zero, false_imp_iff, and_true] <;>
      omega
  | full w =>
    obtain ⟨⟨⟨M, m, p⟩, is⟩, build, raw, options⟩ := w
    -- which number is the first other than zero decides where the ceiling stands
    cases M <;> cases m
    all_goals
      simp only [caret, HeldByCaret, List.all_cons, List.all_nil, Bool.and_true, Bool.and_eq_true,
        Comparator.test_atLeast, Comparator.test_ceiling, Core.compare_eq_lt_iff,
        Core.AgreesUpToNonzero, true_imp_iff, Nat.add_one_ne_zero, false_imp_iff, and_true]
      refine and_congr_right fun hge => ?_
      have hcore := Version.core_not_lt_of_isGE hge
      simp only [Core.compare_eq_lt_iff] at hcore
      omega

/-- Resolving an operand changes nothing of what its caret holds. -/
theorem heldByCaret_resolve (o : Operand) (options : Options) (v : Version) :
    (o.resolve options).HeldByCaret v ↔ o.extent.HeldByCaret v := by
  rw [Operand.resolve]
  cases o.extent <;> exact Iff.rfl

end Extent

/-- **A caret admits what stands from its operand on and agrees with it up to the first number other
than zero.**  Let `p` be the text of an operand, complete or not. With a caret in front it is a range
text, and the range admits exactly these versions, of the releases and, if all pre-releases are
included, of all. -/
theorem Range.admits_caret_iff {p : String} {o : Operand} (hp : WritesOperand p.toList o)
    (options : Options) :
    ∃ range, Range.parse ("^" ++ p) options = .ok range ∧
      ∀ v : Version, v.isPrerelease = false ∨ options.includePrerelease = true →
        (range.admits v = true ↔ o.extent.HeldByCaret v) := by
  have hsign : "^".toList = ['^'] := rfl
  have hterm : WritesTerm ("^".toList ++ p.toList) (.caret o) := .caret (List.forall_mem_nil _) hp
  refine ⟨_, hterm.range_parse_append_eq_ok hp hsign (by decide) options, fun v hv => ?_⟩
  rw [Range.admits_single hv, ← Extent.heldByCaret_resolve o options, ← Extent.test_caret hv]
  exact Iff.rfl

/-- The major number is zero, so the minor number has to agree. The ceiling `0.3.0-0` is out, and so
is what stands below the operand. -/
theorem Range.admits_caret_iff_rc : ∃ range,
    Range.parse ("^" ++ "0.2.3-rc") { includePrerelease := true } = .ok range ∧
    range.admits (.numbered 0 2 9 0) = true ∧ range.admits (.numbered 0 3 0 0) = false ∧
    range.admits (.numbered 0 2 3 9) = false := by
  have hparse : Version.parse "0.2.3-rc" {} = .ok
      { core := ⟨0, 2, 3⟩, preRelease := [.alphanumeric "rc"], raw := some "0.2.3-rc" } := by
    decide +kernel
  obtain ⟨hp, -⟩ := Version.writesOperand_of_parse hparse
  obtain ⟨range, hrange, hadmits⟩ := Range.admits_caret_iff hp { includePrerelease := true }
  refine ⟨range, hrange, (hadmits _ (Or.inr rfl)).2 ?_, ?_, ?_⟩
  · exact ⟨by decide +kernel, rfl, fun _ => ⟨rfl, fun h => nomatch h⟩⟩
  · rw [Bool.eq_false_iff, Ne, hadmits _ (Or.inr rfl)]
    rintro ⟨-, -, hminor⟩
    exact absurd (hminor rfl).1 (by decide)
  · rw [Bool.eq_false_iff, Ne, hadmits _ (Or.inr rfl)]
    rintro ⟨hge, -⟩
    exact absurd hge (by decide +kernel)

end SemanticVersioning
