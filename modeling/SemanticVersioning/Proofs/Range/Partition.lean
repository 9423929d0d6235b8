import SemanticVersioning.Proofs.Range.OperandText
import SemanticVersioning.Proofs.Version.Precedence

/-!
# Comparisons with partial operands

A partial operand stands for a stretch of versions: all of them, those of one major number, or those
of one major and one minor number. A comparison with such an operand is a comparison with the whole
stretch. A version is below the stretch, in it, or above it (`Extent.place`), and the comparators of
an operator admit it accordingly (`Extent.test_compared`).

## Where the edges of a stretch stand

The upper edge of the stretch of `1` is `2.0.0-0`, below which stand exactly the versions whose core
is below `2.0.0` (`Comparator.test_ceiling`). The lower edge is `1.0.0`, and a pre-release of that
core stands below it although its major number is `1`. So the stretches of partial operands fit
together only for releases, or if all pre-releases are included: the lower edge is `1.0.0-0` then
(`Comparator.test_floor`). The two assumptions are also those under which the exclusion of
pre-releases does not take part.
-/

namespace SemanticVersioning

/-! ## Floors and ceilings -/

namespace Comparator

theorem test_atLeast (v w : Version) : (atLeast w).test v = (compare v w).isGE := rfl

theorem test_ceiling {v : Version} {major minor patch : Nat} :
    (ceiling major minor patch).test v = true ↔ compare v.core ⟨major, minor, patch⟩ = .lt := by
  rw [← Version.compare_numbered_zero_eq_lt_iff]
  exact Ordering.isLT_iff_eq_lt

theorem test_floor {v : Version} {includePrerelease : Bool}
    (hv : v.isPrerelease = false ∨ includePrerelease = true) {major minor patch : Nat} :
    (floor includePrerelease major minor patch).test v = true ↔
      ¬ compare v.core ⟨major, minor, patch⟩ = .lt := by
  rw [floor]
  split
  case isTrue =>
    rw [← Version.compare_numbered_zero_eq_lt_iff]
    exact Ordering.isGE_iff_ne_lt
  case isFalse hoptions =>
    rcases hv with hrelease | hinclude
    · rw [← Version.compare_release_eq_lt_iff hrelease]
      exact Ordering.isGE_iff_ne_lt
    · exact absurd hinclude hoptions

end Comparator

/-! ## Where a version stands -/

namespace Extent

/-- How a version compares to the stretch of the versions that an operand stands for. -/
def place (v : Version) : Extent → Ordering
  | any => .eq
  | major M => compare v.core.major M
  | minor M m => (compare v.core.major M).then (compare v.core.minor m)
  | full w => compare v w

/-- Whether a version agrees with an operand as far as the operand goes. -/
def Agrees (v : Version) : Extent → Prop
  | any => True
  | major M => v.core.major = M
  | minor M m => v.core.major = M ∧ v.core.minor = m
  | full w => v.samePrecedence w = true

theorem place_eq_eq_iff {v : Version} {e : Extent} : e.place v = .eq ↔ e.Agrees v := by
  cases e with
  | any => simp [place, Agrees]
  | major M => exact Nat.compare_eq_eq
  | minor M m =>
    rw [place, Ordering.then_eq_eq, Nat.compare_eq_eq, Nat.compare_eq_eq]
    exact Iff.rfl
  | full w => exact Version.compare_eq_eq_iff.trans Version.samePrecedence_iff.symm

end Extent

theorem Operator.admits_iff {op : Operator} {o : Ordering} : op.admits o = true ↔
    match op with
    | .exact => o = .eq
    | .greater => o = .gt
    | .greaterOrEqual => ¬ o = .lt
    | .less => o = .lt
    | .lessOrEqual => ¬ o = .gt := by
  cases op <;> cases o <;> simp [admits]

/-- **A comparison with an operand is a comparison with its stretch.** -/
theorem Extent.test_compared {v : Version} {includePrerelease : Bool}
    (hv : v.isPrerelease = false ∨ includePrerelease = true) (e : Extent) (op : Operator) :
    (e.compared includePrerelease op).all (·.test v) = op.admits (e.place v) := by
  rw [Bool.eq_iff_iff, Operator.admits_iff]
  cases e with
  | any =>
    have hlowest : ¬ Comparator.test (.below .lowest) v = true := by
      intro h
      have hcore : compare v.core ⟨0, 0, 0⟩ = .lt := Comparator.test_ceiling.1 h
      simp [Core.compare_eq_lt_iff] at hcore
    cases op <;> simp [compared, place, hlowest]
  | full w =>
    rw [← Operator.admits_iff]
    simp [compared, place, Comparator.test]
  | major M =>
    cases op <;>
      simp only [compared, agreeing, List.all_cons, List.all_nil, Bool.and_true, Bool.and_eq_true,
        Comparator.test_floor hv, Comparator.test_ceiling, Core.compare_eq_lt_iff, place,
        Nat.compare_eq_lt, Nat.compare_eq_eq, Nat.compare_eq_gt] <;>
      omega
  | minor M m =>
    cases op <;>
      simp only [compared, agreeing, List.all_cons, List.all_nil, Bool.and_true, Bool.and_eq_true,
        Comparator.test_floor hv, Comparator.test_ceiling, Core.compare_eq_lt_iff, place,
        Ordering.then_eq_lt, Ordering.then_eq_eq, Ordering.then_eq_gt,
        Nat.compare_eq_lt, Nat.compare_eq_eq, Nat.compare_eq_gt] <;>
      omega

/-- Resolving an operand changes nothing of what is compared. -/
theorem Operand.place_resolve (o : Operand) (options : Options) (v : Version) :
    (o.resolve options).place v = o.extent.place v := by
  rw [resolve]
  cases o.extent <;> rfl

/-- A range of one set admits what meets each comparator of it. -/
theorem Range.admits_single {cs : List Comparator} {options : Options} {v : Version}
    (hv : v.isPrerelease = false ∨ options.includePrerelease = true) :
    Range.admits { sets := [⟨cs⟩], options } v = cs.all (·.test v) := by
  rw [admits, List.any_cons, List.any_nil, Bool.or_false, ComparatorSet.admits_eq_test hv,
    ComparatorSet.test]

theorem Operator.exists_range (sign : String) {p : String} {op : Operator} {o : Operand}
    (hsign : WritesOperator sign.toList op) (hp : WritesOperand p.toList o) {v : Version}
    {options : Options} (hv : v.isPrerelease = false ∨ options.includePrerelease = true) :
    ∃ range, Range.parse (sign ++ p) options = .ok range ∧
      range.admits v = op.admits (o.extent.place v) := by
  refine ⟨_, Operator.parse_eq_ok hsign hp options, ?_⟩
  rw [Range.admits_single hv, Extent.test_compared hv, Operand.place_resolve]

/-! ## The partition -/

/-- **The comparisons with an operand partition the versions.**  Let `p` be the text of an operand,
complete or not, and let `v` be a release, or all pre-releases be included. Then `v` is in exactly
one of the ranges `<p`, `=p` and `>p`; the range `<=p` is the union of the first two, `>=p` that of
the last two, and `=p` has the versions that agree with the operand as far as it goes. -/
theorem Range.compared_partition {p : String} {o : Operand} (hp : WritesOperand p.toList o)
    {options : Options} {v : Version}
    (hv : v.isPrerelease = false ∨ options.includePrerelease = true) :
    ∃ less atMost exact atLeast greater : Range,
      Range.parse ("<" ++ p) options = .ok less ∧
      Range.parse ("<=" ++ p) options = .ok atMost ∧
      Range.parse ("=" ++ p) options = .ok exact ∧
      Range.parse (">=" ++ p) options = .ok atLeast ∧
      Range.parse (">" ++ p) options = .ok greater ∧
      ((less.admits v = true ∧ exact.admits v = false ∧ greater.admits v = false) ∨
        (less.admits v = false ∧ exact.admits v = true ∧ greater.admits v = false) ∨
        (less.admits v = false ∧ exact.admits v = false ∧ greater.admits v = true)) ∧
      (atMost.admits v = true ↔ less.admits v = true ∨ exact.admits v = true) ∧
      (atLeast.admits v = true ↔ greater.admits v = true ∨ exact.admits v = true) ∧
      (exact.admits v = true ↔ o.extent.Agrees v) := by
  obtain ⟨less, hless, hl⟩ := Operator.exists_range "<" .less hp hv
  obtain ⟨atMost, hatMost, hle⟩ := Operator.exists_range "<=" .lessOrEqual hp hv
  obtain ⟨exact, hexact, he⟩ := Operator.exists_range "=" .exact hp hv
  obtain ⟨atLeast, hatLeast, hge⟩ := Operator.exists_range ">=" .greaterOrEqual hp hv
  obtain ⟨greater, hgreater, hg⟩ := Operator.exists_range ">" .greater hp hv
  refine ⟨less, atMost, exact, atLeast, greater, hless, hatMost, hexact, hatLeast, hgreater, ?_⟩
  rw [← Extent.place_eq_eq_iff, hl, hle, he, hge, hg]
  cases o.extent.place v <;> simp [Operator.admits]

/-- In an operand with a wildcard the component after it means nothing. The pre-release `1.5.0-rc`
agrees with `1.x.3`, so it is neither below nor above. -/
theorem Range.compared_partition_wildcard : ∃ less exact greater : Range,
    Range.parse ("<" ++ "1.x.3") { includePrerelease := true } = .ok less ∧
    Range.parse ("=" ++ "1.x.3") { includePrerelease := true } = .ok exact ∧
    Range.parse (">" ++ "1.x.3") { includePrerelease := true } = .ok greater ∧
    [less, exact, greater].map
      (·.admits { core := ⟨1, 5, 0⟩, preRelease := [.alphanumeric "rc"] }) =
        [false, true, false] := by
  have hfirst : WritesNumber true ['1'] 1 :=
    ⟨by decide, List.all_eq_true.1 rfl, by decide, by decide, by decide⟩
  have hlast : WritesNumber true ['3'] 3 :=
    ⟨by decide, List.all_eq_true.1 rfl, by decide, by decide, by decide⟩
  have hpatch : WritesPatchPart ['.', '3'] (some 3, [], []) :=
    .intro (.number hlast) (.intro .absent .absent)
  have hminor : WritesMinorPart ['.', 'x', '.', '3'] (none, some (some 3, [], [])) :=
    .more (.wildcard (c := 'x') rfl) hpatch
  have hp : WritesOperand "1.x.3".toList ⟨"1.x.3", .major 1⟩ :=
    .bare (.more (.number hfirst) hminor)
  let v : Version := { core := ⟨1, 5, 0⟩, preRelease := [.alphanumeric "rc"] }
  let options : Options := { includePrerelease := true }
  have hv : v.isPrerelease = false ∨ options.includePrerelease = true := Or.inr rfl
  obtain ⟨less, -, exact, -, greater, hless, -, hexact, -, hgreater, hone, -, -, hagrees⟩ :=
    Range.compared_partition hp hv
  have hin : exact.admits v = true := hagrees.2 rfl
  refine ⟨less, exact, greater, hless, hexact, hgreater, ?_⟩
  show [less.admits v, exact.admits v, greater.admits v] = [false, true, false]
  simpa [hin] using hone

end SemanticVersioning
