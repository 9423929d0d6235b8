import SemanticVersioning.Proofs.Range.Meeting

/-!
# How far intervals reach

The interval of a set keeps the tighter of two edges, time and again. An edge is given by how far it
reaches inwards, and to keep the tighter one is to take a supremum, on either side. So an interval is
given by how far its two edges reach (`Interval.reach_injective`), and all that happens to intervals is
that suprema are taken.

The common part of two intervals therefore does not depend on which of the two comes first
(`Interval.intersect_comm`), and the interval of a set reaches just as far as the one of its
comparators that reaches furthest, on either side (`ComparatorSet.reach_interval_le_iff`).

To go through the comparators of two sets in one run, or in two runs and then take the common part,
comes to the same interval (`ComparatorSet.interval_append`). What is known of the interval of one set
is thereby known of common parts as well: within the edges stands what meets the comparators, and
nothing else (`ComparatorSet.encloses_iff_forall_test`).
-/

namespace SemanticVersioning

/-! ## How far intervals reach -/

namespace Interval

/-- How far the edges of an interval reach inwards, the lower one upwards and the upper one
downwards. -/
def reach (interval : Interval) : WithBot (Rank ×ₗ Bool) × WithBot (Rankᵒᵈ ×ₗ Bool) :=
  (interval.lower.reach id, interval.upper.reach OrderDual.toDual)

theorem reach_injective : reach.Injective := by
  intro a b h
  obtain ⟨hlower, hupper⟩ := Prod.mk.inj h
  cases a
  cases b
  exact congrArg₂ _ (Edge.reach_injective Function.injective_id hlower)
    (Edge.reach_injective OrderDual.toDual.injective hupper)

@[simp] theorem reach_raise (interval : Interval) (edge : Edge) :
    (interval.raise edge).reach = interval.reach ⊔ (edge.reach id, ⊥) := by
  rw [raise_eq]
  exact Prod.ext (Edge.reach_tighter_lower edge interval.lower) (sup_bot_eq _).symm

@[simp] theorem reach_cap (interval : Interval) (edge : Edge) :
    (interval.cap edge).reach = interval.reach ⊔ (⊥, edge.reach OrderDual.toDual) := by
  rw [cap_eq]
  exact Prod.ext (sup_bot_eq _).symm (Edge.reach_tighter_upper edge interval.upper)

theorem reach_intersect (a b : Interval) : (a.intersect b).reach = a.reach ⊔ b.reach := by
  have hb : (b.lower.reach id, ⊥) ⊔ (⊥, b.upper.reach OrderDual.toDual) = b.reach :=
    Prod.ext (sup_bot_eq _) (bot_sup_eq _)
  rw [intersect, reach_cap, reach_raise, sup_assoc, hb]

theorem intersect_comm (a b : Interval) : a.intersect b = b.intersect a :=
  reach_injective (by rw [reach_intersect, reach_intersect, sup_comm])

/-- A comparator reaches as far into any interval as into the one that is unbounded. -/
theorem reach_tighten (interval : Interval) (c : Comparator) :
    (interval.tighten c).reach = interval.reach ⊔ (({} : Interval).tighten c).reach := by
  have hbot : ({} : Interval).reach = ⊥ := rfl
  obtain ⟨op, v⟩ := c
  cases op <;> simp [tighten, hbot, sup_assoc]

theorem reach_foldl_tighten_le_iff {cs : List Comparator} {interval : Interval}
    {k : WithBot (Rank ×ₗ Bool) × WithBot (Rankᵒᵈ ×ₗ Bool)} :
    (cs.foldl tighten interval).reach ≤ k ↔
      interval.reach ≤ k ∧ ∀ c ∈ cs, (({} : Interval).tighten c).reach ≤ k := by
  induction cs generalizing interval with
  | nil => simp
  | cons c cs ih =>
    rw [List.foldl_cons, ih, reach_tighten, sup_le_iff, List.forall_mem_cons, and_assoc]

end Interval

namespace ComparatorSet

theorem reach_interval_le_iff (set : ComparatorSet)
    {k : WithBot (Rank ×ₗ Bool) × WithBot (Rankᵒᵈ ×ₗ Bool)} :
    set.interval.reach ≤ k ↔ ∀ c ∈ set.comparators, (({} : Interval).tighten c).reach ≤ k :=
  Interval.reach_foldl_tighten_le_iff.trans (and_iff_right (bot_le : ⊥ ≤ k))

theorem meets_comm (s t : ComparatorSet) : s.meets t = t.meets s := by
  rw [meets, meets, Interval.intersect_comm]

/-- The common part of the intervals of two sets is the interval of all their comparators together. -/
theorem interval_append (s t : ComparatorSet) :
    interval ⟨s.comparators ++ t.comparators⟩ = s.interval.intersect t.interval := by
  refine Interval.reach_injective (eq_of_forall_ge_iff fun k => ?_)
  rw [Interval.reach_intersect, sup_le_iff, reach_interval_le_iff, reach_interval_le_iff,
    reach_interval_le_iff, List.forall_mem_append]

/-- Of two edges at one rank the excluding one stays, whichever comes first. -/
example :
    let s : ComparatorSet := ⟨[.atLeast (.release 1 2 3), .below (.release 1 3 0)]⟩
    let t : ComparatorSet := ⟨[⟨.greater, .release 1 2 3⟩, ⟨.lessOrEqual, .release 1 3 0⟩]⟩
    s.interval.intersect t.interval =
      ⟨.excluding ⟨⟨1, 2, 3⟩, []⟩, .excluding ⟨⟨1, 3, 0⟩, []⟩⟩ := by
  decide

/-! ## What stands within the edges -/

/-- **Edges are exact.**  A version meets each comparator of a set exactly if it stands within the
edges of the interval of the set, and it meets each comparator of two sets exactly if it stands within
the edges of the common part of their intervals. -/
theorem encloses_iff_forall_test (s t : ComparatorSet) (v : Version) :
    (s.interval.Encloses v.toRank ↔ ∀ c ∈ s.comparators, c.test v = true) ∧
      ((s.interval.intersect t.interval).Encloses v.toRank ↔
        ∀ c ∈ s.comparators ++ t.comparators, c.test v = true) := by
  have hexact : ∀ u : ComparatorSet,
      u.interval.Encloses v.toRank ↔ ∀ c ∈ u.comparators, c.test v = true := by
    intro u
    rw [← Interval.admits_iff_encloses, admits_interval, test, List.all_eq_true]
  refine ⟨hexact s, ?_⟩
  rw [← interval_append]
  exact hexact ⟨s.comparators ++ t.comparators⟩

end ComparatorSet

end SemanticVersioning
