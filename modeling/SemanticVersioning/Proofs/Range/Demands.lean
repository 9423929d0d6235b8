import Mathlib.Logic.Relation
import SemanticVersioning.Proofs.Range.Minimum
import SemanticVersioning.Proofs.Range.Reach

/-!
# What the answers of a range depend on

A set is a list of comparators and a range a list of sets, and both lists are gone through from the
left. The answers do not show it. They depend on which demands occur in which sets, and neither on
the order nor on how often a demand or a set occurs (`ComparatorSet.Agrees`, `Range.Agrees`).

* *Admission* asks whether all comparators are met and whether some names a pre-release, for some set.
* The *interval* of a set is a supremum over the comparators (`ComparatorSet.reach_interval_le_iff`).
* The *starting points* are found by scans, of which only the keys of the elements matter for the key
  of the answer (`Seeks.map_best?_congr`). The lowest version is therefore determined up to precedence.

To change the order of comparators or sets, or to repeat some of them, changes the answers to no
question (`Range.answers_of_rearranges`).
-/

namespace SemanticVersioning

/-! ## Comparators of one demand -/

theorem Interval.tighten_congr {c d : Comparator} (h : c.demand = d.demand) (interval : Interval) :
    interval.tighten c = interval.tighten d := by
  obtain ⟨hop, hrank⟩ := Prod.mk.inj h
  rw [tighten, tighten, hop, hrank]

theorem Version.toRank_successor_congr {v w : Version} (h : v.toRank = w.toRank) :
    v.successor.toRank = w.successor.toRank := by
  have hpre : w.isPrerelease = v.isPrerelease := congrArg Rank.isPrerelease h.symm
  cases hv : v.isPrerelease with
  | true =>
    rw [toRank_successor_of_isPrerelease hv, toRank_successor_of_isPrerelease (hpre.trans hv), h]
  | false =>
    rw [toRank_successor_of_release hv, toRank_successor_of_release (hpre.trans hv), h]

namespace Comparator

variable {c d : Comparator}

theorem namesPrereleaseOf_eq_of_demand_eq (h : c.demand = d.demand) (core : Core) :
    c.namesPrereleaseOf core = d.namesPrereleaseOf core := by
  rw [namesPrereleaseOf, namesPrereleaseOf, Version.isPrerelease, Version.isPrerelease,
    (Prod.mk.inj h).2]

theorem start?_eq_of_demand_eq (h : c.demand = d.demand) :
    c.start?.map (·.toRank) = d.start?.map (·.toRank) := by
  obtain ⟨op, v⟩ := c
  obtain ⟨op', w⟩ := d
  obtain ⟨rfl, hrank⟩ : op = op' ∧ v.toRank = w.toRank := Prod.mk.inj h
  cases op <;> simp [start?, hrank, Version.toRank_successor_congr hrank]

end Comparator

/-! ## Sets in which the same demands occur -/

namespace ComparatorSet

variable {s t u : ComparatorSet}

/-- Whether the same demands occur in two sets, in any order and any number of times. -/
def Agrees (s t : ComparatorSet) : Prop :=
  ∀ demand, demand ∈ s.demands ↔ demand ∈ t.demands

namespace Agrees

theorem refl (s : ComparatorSet) : s.Agrees s := fun _ => Iff.rfl

theorem symm (h : s.Agrees t) : t.Agrees s := fun demand => (h demand).symm

theorem trans (h : s.Agrees t) (h' : t.Agrees u) : s.Agrees u :=
  fun demand => (h demand).trans (h' demand)

theorem of_mem_iff (h : ∀ c, c ∈ s.comparators ↔ c ∈ t.comparators) : s.Agrees t := by
  intro demand
  simp [demands, h]

theorem exists_demand_eq (h : s.Agrees t) {c : Comparator} (hc : c ∈ s.comparators) :
    ∃ d ∈ t.comparators, d.demand = c.demand :=
  List.mem_map.1 ((h _).1 (List.mem_map_of_mem hc))

/-- What comparators of one demand have in common is had by all of one set or by all of neither. -/
theorem forall_iff {p : Comparator → Prop} (h : s.Agrees t)
    (hp : ∀ {c d : Comparator}, c.demand = d.demand → p c → p d) :
    (∀ c ∈ s.comparators, p c) ↔ ∀ c ∈ t.comparators, p c := by
  have himp : ∀ {s t : ComparatorSet}, s.Agrees t → (∀ c ∈ s.comparators, p c) →
      ∀ c ∈ t.comparators, p c := by
    intro s t h hall c hc
    obtain ⟨d, hd, hdemand⟩ := h.symm.exists_demand_eq hc
    exact hp hdemand (hall d hd)
  exact ⟨himp h, himp h.symm⟩

theorem exists_iff {p : Comparator → Prop} (h : s.Agrees t)
    (hp : ∀ {c d : Comparator}, c.demand = d.demand → p c → p d) :
    (∃ c ∈ s.comparators, p c) ↔ ∃ c ∈ t.comparators, p c := by
  have himp : ∀ {s t : ComparatorSet}, s.Agrees t → (∃ c ∈ s.comparators, p c) →
      ∃ c ∈ t.comparators, p c := by
    rintro s t h ⟨c, hc, hpc⟩
    obtain ⟨d, hd, hdemand⟩ := h.exists_demand_eq hc
    exact ⟨d, hd, hp hdemand.symm hpc⟩
  exact ⟨himp h, himp h.symm⟩

theorem test_eq (h : s.Agrees t) (v : Version) : s.test v = t.test v := by
  rw [Bool.eq_iff_iff, test, test, List.all_eq_true, List.all_eq_true]
  exact h.forall_iff fun hdemand => (Comparator.test_eq_of_demand_eq hdemand v ▸ ·)

theorem permits_eq (h : s.Agrees t) (v : Version) : s.permits v = t.permits v := by
  rw [permits, permits, Bool.eq_iff_iff, Bool.or_eq_true, Bool.or_eq_true, List.any_eq_true,
    List.any_eq_true]
  exact or_congr_right (h.exists_iff fun hdemand =>
    (Comparator.namesPrereleaseOf_eq_of_demand_eq hdemand v.core ▸ ·))

theorem admits_eq (h : s.Agrees t) (includePrerelease : Bool) (v : Version) :
    s.admits includePrerelease v = t.admits includePrerelease v := by
  rw [admits, admits, h.test_eq, h.permits_eq]

/-- **The interval of a set is determined by the demands that occur in it.** -/
theorem interval_eq (h : s.Agrees t) : s.interval = t.interval := by
  refine Interval.reach_injective (eq_of_forall_ge_iff fun k => ?_)
  rw [reach_interval_le_iff, reach_interval_le_iff]
  exact h.forall_iff fun hdemand => (Interval.tighten_congr hdemand {} ▸ ·)

theorem meets_eq (h : s.Agrees t) (u : ComparatorSet) : s.meets u = t.meets u := by
  rw [meets, meets, h.interval_eq]

theorem start?_eq (h : s.Agrees t) : s.start?.map (·.toRank) = t.start?.map (·.toRank) := by
  refine seeks_highest.map_best?_congr fun k => ?_
  rw [List.map_filterMap, List.map_filterMap, List.mem_filterMap, List.mem_filterMap]
  exact h.exists_iff fun hdemand => (Comparator.start?_eq_of_demand_eq hdemand ▸ ·)

end Agrees
end ComparatorSet

/-! ## Ranges in which the same sets occur -/

namespace Range

variable {a b c : Range}

/-- Whether each set of either range agrees with one of the other, and the options are the same. -/
structure Agrees (a b : Range) : Prop where
  options : a.options = b.options
  forth : ∀ s ∈ a.sets, ∃ t ∈ b.sets, s.Agrees t
  back : ∀ t ∈ b.sets, ∃ s ∈ a.sets, t.Agrees s

theorem meets_comm (a b : Range) : a.meets b = b.meets a := by
  rw [Bool.eq_iff_iff, meets_eq_true_iff, meets_eq_true_iff]
  constructor
  all_goals
    rintro ⟨s, hs, t, ht, hmeets⟩
    exact ⟨t, ht, s, hs, (ComparatorSet.meets_comm t s).trans hmeets⟩

namespace Agrees

theorem refl (a : Range) : a.Agrees a :=
  ⟨rfl, fun s hs => ⟨s, hs, .refl s⟩, fun s hs => ⟨s, hs, .refl s⟩⟩

theorem symm (h : a.Agrees b) : b.Agrees a :=
  ⟨h.options.symm, h.back, h.forth⟩

theorem trans (h : a.Agrees b) (h' : b.Agrees c) : a.Agrees c where
  options := h.options.trans h'.options
  forth s hs := by
    obtain ⟨t, ht, hst⟩ := h.forth s hs
    obtain ⟨u, hu, htu⟩ := h'.forth t ht
    exact ⟨u, hu, hst.trans htu⟩
  back u hu := by
    obtain ⟨t, ht, hut⟩ := h'.back u hu
    obtain ⟨s, hs, hts⟩ := h.back t ht
    exact ⟨s, hs, hut.trans hts⟩

theorem of_mem_iff (hoptions : a.options = b.options) (h : ∀ s, s ∈ a.sets ↔ s ∈ b.sets) :
    a.Agrees b :=
  ⟨hoptions, fun s hs => ⟨s, (h s).1 hs, .refl s⟩, fun s hs => ⟨s, (h s).2 hs, .refl s⟩⟩

/-- What sets that agree have in common is had by one of either range or by none. -/
theorem exists_iff {p : ComparatorSet → Prop} (h : a.Agrees b)
    (hp : ∀ {s t : ComparatorSet}, s.Agrees t → p s → p t) :
    (∃ s ∈ a.sets, p s) ↔ ∃ s ∈ b.sets, p s := by
  have himp : ∀ {a b : Range}, a.Agrees b → (∃ s ∈ a.sets, p s) → ∃ s ∈ b.sets, p s := by
    rintro a b h ⟨s, hs, hps⟩
    obtain ⟨t, ht, hst⟩ := h.forth s hs
    exact ⟨t, ht, hp hst hps⟩
  exact ⟨himp h, himp h.symm⟩

theorem admits_eq (h : a.Agrees b) (v : Version) : a.admits v = b.admits v := by
  rw [Bool.eq_iff_iff, admits, admits, h.options, List.any_eq_true, List.any_eq_true]
  exact h.exists_iff fun hst => (hst.admits_eq b.options.includePrerelease v ▸ ·)

theorem meets_eq (h : a.Agrees b) (c : Range) : a.meets c = b.meets c := by
  rw [Bool.eq_iff_iff, meets_eq_true_iff, meets_eq_true_iff]
  refine h.exists_iff fun hst => ?_
  rintro ⟨u, hu, hmeets⟩
  exact ⟨u, hu, (hst.meets_eq u).symm.trans hmeets⟩

theorem meets_eq_right (h : a.Agrees b) (c : Range) : c.meets a = c.meets b := by
  rw [meets_comm, h.meets_eq, meets_comm]

theorem start?_eq (h : a.Agrees b) : a.start?.map (·.toRank) = b.start?.map (·.toRank) := by
  refine seeks_lowest.map_best?_congr fun k => ?_
  rw [List.map_filterMap, List.map_filterMap, List.mem_filterMap, List.mem_filterMap]
  exact h.exists_iff fun hst => (hst.start?_eq ▸ ·)

/-- **The lowest version of a range is determined up to precedence.** -/
theorem minimum?_eq (h : a.Agrees b) :
    a.minimum?.map (·.toRank) = b.minimum?.map (·.toRank) := by
  have hstart := h.start?_eq
  rw [minimum?, minimum?, h.admits_eq, h.admits_eq]
  split
  case isTrue => rfl
  split
  case isTrue => rfl
  cases ha : a.start? with
  | none =>
    cases hb : b.start? with
    | none => rfl
    | some n => simp [ha, hb] at hstart
  | some m =>
    cases hb : b.start? with
    | none => simp [ha, hb] at hstart
    | some n =>
      obtain hrank : m.toRank = n.toRank := by simpa [ha, hb] using hstart
      rw [Option.filter_some, Option.filter_some, h.admits_eq, admits_congr hrank]
      split
      · exact congrArg some hrank
      · rfl

end Agrees
end Range

/-! ## Rearranging comparators and sets -/

/-- One list is another with its elements in a different order, or with an element repeated. -/
inductive Reorders {α : Type} : List α → List α → Prop
  | permute {as bs : List α} : as.Perm bs → Reorders as bs
  | duplicate {as : List α} {a : α} : a ∈ as → Reorders as (a :: as)

theorem Reorders.mem_iff {α : Type} {as bs : List α} (h : Reorders as bs) (a : α) :
    a ∈ as ↔ a ∈ bs := by
  cases h with
  | permute hperm => exact hperm.mem_iff
  | duplicate hmem =>
    rw [List.mem_cons, iff_or_self]
    rintro rfl
    exact hmem

namespace Range

/-- One range is another with its sets reordered, or with the comparators of a set reordered. -/
inductive Rearranges : Range → Range → Prop
  | sets {sets sets' : List ComparatorSet} {options : Options} :
      Reorders sets sets' → Rearranges ⟨sets, options⟩ ⟨sets', options⟩
  | comparators {before after : List ComparatorSet} {cs cs' : List Comparator} {options : Options} :
      Reorders cs cs' →
        Rearranges ⟨before ++ ⟨cs⟩ :: after, options⟩ ⟨before ++ ⟨cs'⟩ :: after, options⟩

variable {a b : Range}

theorem Rearranges.agrees (h : Rearranges a b) : a.Agrees b := by
  cases h with
  | sets hsets => exact .of_mem_iff rfl hsets.mem_iff
  | @comparators before after cs cs' options hcs =>
    have hset : ComparatorSet.Agrees ⟨cs⟩ ⟨cs'⟩ := .of_mem_iff hcs.mem_iff
    -- the other sets stay, and the one that is reordered has its counterpart in the same place
    refine ⟨rfl, fun s hs => ?_, fun s hs => ?_⟩
    · rw [List.mem_append, List.mem_cons] at hs
      rcases hs with hs | rfl | hs
      · exact ⟨s, by simp [hs], .refl s⟩
      · exact ⟨⟨cs'⟩, by simp, hset⟩
      · exact ⟨s, by simp [hs], .refl s⟩
    · rw [List.mem_append, List.mem_cons] at hs
      rcases hs with hs | rfl | hs
      · exact ⟨s, by simp [hs], .refl s⟩
      · exact ⟨⟨cs⟩, by simp, hset.symm⟩
      · exact ⟨s, by simp [hs], .refl s⟩

theorem agrees_of_rearranges (h : Relation.ReflTransGen Rearranges a b) : a.Agrees b := by
  induction h with
  | refl => exact .refl a
  | tail _ hstep ih => exact ih.trans hstep.agrees

/-- **Order and repetition do not matter.**  Whether ranges meet does not depend on which one is
asked. To permute or to repeat sets, or comparators of a set, as often as one likes, changes neither
what the range admits, nor which ranges it meets, nor the precedence of its lowest version. -/
theorem answers_of_rearranges (a : Range) :
    (∀ b : Range, a.meets b = b.meets a) ∧
      ∀ a' : Range, Relation.ReflTransGen Rearranges a a' →
        (∀ v, a'.admits v = a.admits v) ∧
        (∀ b : Range, a'.meets b = a.meets b ∧ b.meets a' = b.meets a) ∧
        a'.minimum?.map (·.toRank) = a.minimum?.map (·.toRank) := by
  refine ⟨a.meets_comm, fun a' h => ?_⟩
  have hagrees := (agrees_of_rearranges h).symm
  exact ⟨hagrees.admits_eq, fun b => ⟨hagrees.meets_eq b, hagrees.meets_eq_right b⟩,
    hagrees.minimum?_eq⟩

/-- The sets change places, and the bounds of one of them do. The upper bound is repeated. -/
theorem answers_of_rearranges_repeated : ∃ a a' : Range,
    parse ">=1.2.3 <2 || 3.x" {} = .ok a ∧ parse "3.x || <2 >=1.2.3 <2" {} = .ok a' ∧
    (∀ v, a'.admits v = a.admits v) ∧ (∀ b : Range, a'.meets b = b.meets a) ∧
    a'.minimum?.map (·.toRank) = some ⟨⟨1, 2, 3⟩, []⟩ := by
  let written : Version :=
    { core := ⟨1, 2, 3⟩, raw := some "1.2.3", options := { loose := true } }
  let s : ComparatorSet := ⟨[.atLeast written, .ceiling 2 0 0]⟩
  let s' : ComparatorSet := ⟨[.ceiling 2 0 0, .atLeast written, .ceiling 2 0 0]⟩
  let t : ComparatorSet := ⟨[.floor false 3 0 0, .ceiling 4 0 0]⟩
  let a : Range := { sets := [s, t] }
  have hsets : Rearranges a { sets := [t, s] } := .sets (.permute (.swap t s []))
  have hset : Rearranges { sets := [t, s] } { sets := [t, s'] } :=
    @Rearranges.comparators [t] [] _ _ _ (.duplicate (by simp))
  obtain ⟨hcomm, hanswers⟩ := answers_of_rearranges a
  obtain ⟨hadmits, hmeets, hminimum⟩ := hanswers { sets := [t, s'] }
    ((Relation.ReflTransGen.single hsets).tail hset)
  exact ⟨a, { sets := [t, s'] }, by decide +kernel, by decide +kernel, hadmits,
    fun b => (hmeets b).1.trans (hcomm b), hminimum.trans (by decide +kernel)⟩

end Range
end SemanticVersioning
