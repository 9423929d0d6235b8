import Mathlib.Data.Prod.Lex
import Mathlib.Order.BoundedOrder.Lattice
import Mathlib.Order.WithBot
import SemanticVersioning.Proofs.Version.Successor
import SemanticVersioning.Range.Interval

/-!
# How far edges reach

An edge stands at a rank and may leave it out. What counts is how far it reaches inwards, to the
rank or just beyond it (`Edge.reach`). Lower edges reach upwards and upper edges downwards, which is
the same in the reversed order of ranks. So the places are taken in any linear order that goes in
the direction of `Edge.tighter`, and the two sides of an interval are two instances of each
statement.

* The tighter of two edges is the one that reaches further (`Edge.tighter_iff`). To keep it is to
  take a supremum (`Edge.reach_tighter`).
* A rank is on the inner side of an edge that reaches at most to it
  (`Edge.admitsAbove_iff_reach_le`, `Edge.admitsBelow_iff_reach_le`).

From the two it follows that the tighter edge admits what both edges do (`Edge.admitsAbove_tighter`,
`Edge.admitsBelow_tighter`).
-/

namespace SemanticVersioning
namespace Edge

/-! ## What edges admit -/

section

variable {e : Edge} {r s : Rank}

@[simp] theorem admitsAbove_unbounded (s : Rank) : unbounded.admitsAbove s = true := rfl

@[simp] theorem admitsBelow_unbounded (s : Rank) : unbounded.admitsBelow s = true := rfl

@[simp] theorem admitsAbove_including : (including r).admitsAbove s = true ↔ r ≤ s :=
  Std.isGE_compare

@[simp] theorem admitsAbove_excluding : (excluding r).admitsAbove s = true ↔ r < s :=
  Ordering.isGT_iff_eq_gt.trans Std.compare_eq_gt

@[simp] theorem admitsBelow_including : (including r).admitsBelow s = true ↔ s ≤ r :=
  Std.isLE_compare

@[simp] theorem admitsBelow_excluding : (excluding r).admitsBelow s = true ↔ s < r :=
  Ordering.isLT_iff_eq_lt.trans Std.compare_eq_lt

/-- At one rank, two including edges admit the rank itself. -/
theorem admits_including (r s : Rank) :
    ((including r).admitsAbove s && (including r).admitsBelow s) = (compare s r).isEq := by
  rw [admitsAbove, admitsBelow]
  cases compare s r <;> rfl

theorem admitsAbove_iff :
    e.admitsAbove s = true ↔ ∀ r, e.rank? = some r → r < s ∨ e = including s := by
  cases e with
  | unbounded => simp [rank?]
  | including q => simp [rank?, le_iff_lt_or_eq]
  | excluding q => simp [rank?]

theorem admitsBelow_iff :
    e.admitsBelow s = true ↔ ∀ r, e.rank? = some r → s < r ∨ e = including s := by
  cases e with
  | unbounded => simp [rank?]
  | including q => simp [rank?, le_iff_lt_or_eq, eq_comm (a := s)]
  | excluding q => simp [rank?]

theorem admitsBelow_of_le (h : e.admitsBelow s = true) (hrs : r ≤ s) : e.admitsBelow r = true := by
  cases e with
  | unbounded => rfl
  | including q => exact admitsBelow_including.2 (le_trans hrs (admitsBelow_including.1 h))
  | excluding q => exact admitsBelow_excluding.2 (lt_of_le_of_lt hrs (admitsBelow_excluding.1 h))

end

/-! ## Edges in either direction -/

variable {α : Type} {place : Rank → α} {e f : Edge} {r s : Rank}

/-- How far an edge reaches inwards: not at all, or to a place, or just beyond it. -/
def reach (place : Rank → α) : Edge → WithBot (α ×ₗ Bool)
  | unbounded => ⊥
  | including r => ↑(toLex (place r, false))
  | excluding r => ↑(toLex (place r, true))

theorem reach_injective (hplace : place.Injective) : (reach place).Injective := by
  intro e f h
  cases e <;> cases f <;> simp_all [reach, hplace.eq_iff]

/-- Of two edges at different ranks the one further inwards is tighter, whatever they exclude. -/
theorem tighter_of_rank? {towards : Ordering} (he : e.rank? = some r) (hf : f.rank? = some s) :
    e.tighter towards f = true ↔
      r = s ∧ e.isExcluding = true ∧ f.isExcluding = false ∨ r ≠ s ∧ compare r s = towards := by
  simp only [tighter, he, hf]
  by_cases hrs : r = s
  · subst hrs
    simp
  · cases hcmp : compare r s with
    | eq => exact absurd (Std.compare_eq_iff_eq.1 hcmp) hrs
    | lt => simp [hrs]
    | gt => simp [hrs]

section

variable [LinearOrder α] {towards : Ordering}

/-- The tighter edge reaches further. -/
theorem tighter_iff (hplace : place.Injective)
    (htowards : ∀ r s, compare r s = towards ↔ place s < place r) :
    e.tighter towards f = true ↔ f.reach place < e.reach place := by
  have hplaced : ∀ (r s : Rank) (x y : Bool),
      (r = s ∧ x = true ∧ y = false ∨ r ≠ s ∧ compare r s = towards) ↔
        toLex (place s, y) < toLex (place r, x) := by
    intro r s x y
    have hne : place s < place r → r ≠ s := fun hlt heq => ne_of_gt hlt (congrArg place heq)
    rw [Prod.Lex.toLex_lt_toLex, hplace.eq_iff, htowards, Bool.lt_iff, and_iff_right_of_imp hne,
      or_comm, eq_comm, and_comm (a := x = true)]
  cases e <;> cases f
  case including.including r s =>
    exact (tighter_of_rank? rfl rfl).trans ((hplaced r s false false).trans WithBot.coe_lt_coe.symm)
  case including.excluding r s =>
    exact (tighter_of_rank? rfl rfl).trans ((hplaced r s false true).trans WithBot.coe_lt_coe.symm)
  case excluding.including r s =>
    exact (tighter_of_rank? rfl rfl).trans ((hplaced r s true false).trans WithBot.coe_lt_coe.symm)
  case excluding.excluding r s =>
    exact (tighter_of_rank? rfl rfl).trans ((hplaced r s true true).trans WithBot.coe_lt_coe.symm)
  all_goals simp [tighter, rank?, reach, WithBot.bot_lt_coe]

/-- To keep the tighter of two edges is to reach as far as both. -/
theorem reach_tighter (hplace : place.Injective)
    (htowards : ∀ r s, compare r s = towards ↔ place s < place r) (e f : Edge) :
    (if e.tighter towards f then e else f).reach place = f.reach place ⊔ e.reach place := by
  have htighter : e.tighter towards f = true ↔ f.reach place < e.reach place :=
    tighter_iff hplace htowards
  split
  case isTrue h => exact (sup_of_le_right (le_of_lt (htighter.1 h))).symm
  case isFalse h => exact (sup_of_le_left (not_lt.1 (mt htighter.2 h))).symm

theorem reach_including_le {p : α} :
    (including r).reach place ≤ ↑(toLex (p, false)) ↔ place r ≤ p := by
  rw [reach, WithBot.coe_le_coe, Prod.Lex.toLex_le_toLex]
  exact (or_congr_right (and_iff_left (le_refl false))).trans le_iff_lt_or_eq.symm

theorem reach_excluding_le {p : α} :
    (excluding r).reach place ≤ ↑(toLex (p, false)) ↔ place r < p := by
  rw [reach, WithBot.coe_le_coe, Prod.Lex.toLex_le_toLex]
  simp

end

/-! ## Lower edges and upper edges -/

theorem reach_tighter_lower (e f : Edge) :
    (if e.tighter .gt f then e else f).reach id = f.reach id ⊔ e.reach id :=
  reach_tighter Function.injective_id (fun _ _ => Std.compare_eq_gt) e f

theorem reach_tighter_upper (e f : Edge) :
    (if e.tighter .lt f then e else f).reach OrderDual.toDual =
      f.reach OrderDual.toDual ⊔ e.reach OrderDual.toDual :=
  reach_tighter OrderDual.toDual.injective (fun _ _ => Std.compare_eq_lt) e f

theorem admitsAbove_iff_reach_le :
    e.admitsAbove s = true ↔ e.reach id ≤ ↑(toLex (s, false)) := by
  cases e with
  | unbounded => exact iff_of_true rfl bot_le
  | including r => rw [admitsAbove_including, reach_including_le, id]
  | excluding r => rw [admitsAbove_excluding, reach_excluding_le, id]

theorem admitsBelow_iff_reach_le :
    e.admitsBelow s = true ↔ e.reach OrderDual.toDual ≤ ↑(toLex (OrderDual.toDual s, false)) := by
  cases e with
  | unbounded => exact iff_of_true rfl bot_le
  | including r => rw [admitsBelow_including, reach_including_le, OrderDual.toDual_le_toDual]
  | excluding r => rw [admitsBelow_excluding, reach_excluding_le, OrderDual.toDual_lt_toDual]

/-- The tighter of two lower edges admits what both do. -/
theorem admitsAbove_tighter (e f : Edge) (s : Rank) :
    (if e.tighter .gt f then e else f).admitsAbove s = (f.admitsAbove s && e.admitsAbove s) := by
  rw [Bool.eq_iff_iff, Bool.and_eq_true, admitsAbove_iff_reach_le, admitsAbove_iff_reach_le,
    admitsAbove_iff_reach_le, reach_tighter_lower, sup_le_iff]

/-- The tighter of two upper edges admits what both do. -/
theorem admitsBelow_tighter (e f : Edge) (s : Rank) :
    (if e.tighter .lt f then e else f).admitsBelow s = (f.admitsBelow s && e.admitsBelow s) := by
  rw [Bool.eq_iff_iff, Bool.and_eq_true, admitsBelow_iff_reach_le, admitsBelow_iff_reach_le,
    admitsBelow_iff_reach_le, reach_tighter_upper, sup_le_iff]

end Edge
end SemanticVersioning
