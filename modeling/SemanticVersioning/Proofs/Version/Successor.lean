import Mathlib.Order.Lattice
import Mathlib.Order.Std
import SemanticVersioning.Proofs.Version.Precedence

/-!
# The rank that follows a rank

The ranks are a linear order, and every rank has one that follows it at once (`Rank.next`). Above a
pre-release stand first its own continuations, and the lowest of them adds the number zero. Above a
release stands no rank of its core, so what follows is the lowest pre-release of the next patch.

* `Rank.next_le_iff`: to be above a rank is to be at its next rank or above.
* `Rank.lowest_le`: the rank of `0.0.0-0` is below all others.

So the order has gaps, and nothing stands between a rank and the next one.
-/

namespace SemanticVersioning

/-! ## Ranks as a linear order -/

instance : LinearOrder Rank := .ofStd Rank

namespace Rank

theorem lt_iff {r s : Rank} : r < s ↔ compare r.core s.core = .lt ∨
    r.core = s.core ∧ PreRelease.compare r.preRelease s.preRelease = .lt := by
  rw [← Std.compare_eq_lt, compare_def, Ordering.then_eq_lt, Std.compare_eq_iff_eq]

theorem le_iff {r s : Rank} : r ≤ s ↔ compare r.core s.core = .lt ∨
    r.core = s.core ∧ (PreRelease.compare r.preRelease s.preRelease).isLE = true := by
  rw [← Std.isLE_compare, compare_def, ← Std.compare_eq_iff_eq (a := r.core)]
  cases compare r.core s.core <;> simp

/-- The ranks below the first pre-release of a core are those of lower cores. -/
theorem lt_numbered_zero_iff {r : Rank} {major minor patch : Nat} :
    r < ⟨⟨major, minor, patch⟩, [.numeric 0]⟩ ↔ compare r.core ⟨major, minor, patch⟩ = .lt := by
  rw [← Std.compare_eq_lt]
  exact Version.compare_numbered_zero_eq_lt_iff (v := { toRank := r })

/-- The lowest version has the lowest rank. -/
theorem lowest_le (r : Rank) : Version.lowest.toRank ≤ r := by
  refine not_lt.1 fun h => ?_
  have hcore : compare r.core ⟨0, 0, 0⟩ = .lt := lt_numbered_zero_iff.1 h
  simp [Core.compare_eq_lt_iff] at hcore

end Rank

namespace Version

variable {v w : Version}

theorem compare_eq_lt_iff_toRank : compare v w = .lt ↔ v.toRank < w.toRank :=
  Std.compare_eq_lt (a := v.toRank)

theorem isLE_compare_iff : (compare v w).isLE = true ↔ v.toRank ≤ w.toRank :=
  Std.isLE_compare (a := v.toRank)

end Version

/-! ## The next rank -/

/-- A list of identifiers is below another exactly if its continuation by a zero is not above it. -/
theorem PreRelease.compare_eq_lt_iff_append (is js : List Identifier) :
    Ord.compare is js = .lt ↔ (Ord.compare (is ++ [.numeric 0]) js).isLE = true := by
  induction is generalizing js with
  | nil =>
    cases js with
    | nil => simp
    | cons j js =>
      have hzero : ¬ Ord.compare [.numeric 0] (j :: js) = .gt := by
        rw [Std.OrientedCmp.gt_iff_lt]
        exact compare_numeric_zero_ne_lt (j :: js)
      simpa [Ordering.isLE_iff_ne_gt] using hzero
  | cons i is ih =>
    cases js with
    | nil => simp
    | cons j js =>
      rw [List.cons_append, List.compare_cons_cons, List.compare_cons_cons]
      cases Ord.compare i j with
      | lt => simp
      | eq => simpa using ih js
      | gt => simp

namespace Rank

/-- The rank that follows a rank. -/
def next : Rank → Rank
  | ⟨core, []⟩ => ⟨{ core with patch := core.patch + 1 }, [.numeric 0]⟩
  | ⟨core, i :: is⟩ => ⟨core, i :: is ++ [.numeric 0]⟩

/-- **Nothing stands between a rank and the next one.** -/
theorem next_le_iff {r s : Rank} : r.next ≤ s ↔ r < s := by
  obtain ⟨⟨major, minor, patch⟩, is⟩ := r
  cases is with
  | nil =>
    have hrelease : ¬ PreRelease.compare [] s.preRelease = .lt := by
      cases s.preRelease <;> simp [PreRelease.compare]
    rw [next, ← not_lt, lt_numbered_zero_iff, lt_iff]
    simp only [Core.compare_eq_lt_iff, hrelease, and_false, or_false]
    omega
  | cons i is =>
    rw [next, le_iff, lt_iff]
    refine or_congr_right (and_congr_right fun _ => ?_)
    cases s.preRelease with
    | nil => simp [PreRelease.compare]
    | cons j js => exact (PreRelease.compare_eq_lt_iff_append (i :: is) (j :: js)).symm

theorem lt_next (r : Rank) : r < r.next :=
  next_le_iff.1 (le_refl r.next)

end Rank
end SemanticVersioning
