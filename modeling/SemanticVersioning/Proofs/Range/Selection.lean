import SemanticVersioning.Proofs.Range.Minimum
import SemanticVersioning.Range.Selection

/-!
# What is chosen from a list

From a list of versions `selectHighest?` chooses the last of the highest versions that the range
admits, and `selectLowest?` the first of the lowest (`Range.selection_spec`). Each answer is what
`Range.IsExtreme` says of it and nothing else is, so the place in the list is determined, and in
another order of the list a version of the same precedence is chosen.

## The place in the list

The scan compares versions and never looks at their places. That it finds the last of several equals,
or the first, follows from the order in which it meets them: the candidates are met with growing
indexes (`Range.pairwise_index_admitted`), so those that stand after the answer among the candidates
stand after it in the list.
-/

namespace SemanticVersioning
namespace Range

variable {range : Range} {versions versions' : List Version} {choice choice' : Choice}

/-! ## The candidates -/

theorem mem_admitted_iff : choice ∈ range.admitted versions ↔
    versions[choice.index]? = some choice.version ∧ range.admits choice.version = true := by
  rw [admitted, List.mem_filter, List.mem_map]
  refine and_congr_left' ⟨?_, fun h => ?_⟩
  · rintro ⟨⟨v, i⟩, hentry, rfl⟩
    exact List.mem_zipIdx_iff_getElem?.1 hentry
  · exact ⟨(choice.version, choice.index), List.mem_zipIdx_iff_getElem?.2 h, rfl⟩

theorem exists_mem_admitted {v : Version} (hv : v ∈ versions) (hadmits : range.admits v = true) :
    ∃ choice ∈ range.admitted versions, choice.version = v := by
  obtain ⟨i, hi⟩ := List.mem_iff_getElem?.1 hv
  exact ⟨⟨i, v⟩, mem_admitted_iff.2 ⟨hi, hadmits⟩, rfl⟩

theorem mem_of_mem_admitted (h : choice ∈ range.admitted versions) :
    choice.version ∈ versions ∧ range.admits choice.version = true := by
  obtain ⟨hplace, hadmits⟩ := mem_admitted_iff.1 h
  exact ⟨List.mem_of_getElem? hplace, hadmits⟩

theorem admitted_eq_nil_iff :
    range.admitted versions = [] ↔ ∀ v ∈ versions, range.admits v = false := by
  rw [List.eq_nil_iff_forall_not_mem]
  constructor
  · intro h v hv
    refine Bool.eq_false_iff.2 fun hadmits => ?_
    obtain ⟨choice, hchoice, -⟩ := exists_mem_admitted hv hadmits
    exact h choice hchoice
  · intro h choice hchoice
    obtain ⟨hmem, hadmits⟩ := mem_of_mem_admitted hchoice
    exact Bool.false_ne_true ((h _ hmem).symm.trans hadmits)

/-- The candidates are met with growing indexes. -/
theorem pairwise_index_admitted (range : Range) (versions : List Version) :
    (range.admitted versions).Pairwise fun a b => a.index < b.index := by
  have hindexes : versions.zipIdx.Pairwise fun a b => a.2 < b.2 := by
    refine List.pairwise_map.1 ?_
    rw [List.zipIdx_map_snd]
    exact List.pairwise_lt_range'
  refine List.Pairwise.filter _ (List.pairwise_map.2 ?_)
  exact hindexes

/-- What is met before a candidate stands before it in the list, and what is met after it behind. -/
theorem index_lt_of_admitted_eq {before after : List Choice}
    (hsplit : range.admitted versions = before ++ choice :: after) :
    (∀ c ∈ before, c.index < choice.index) ∧ ∀ c ∈ after, choice.index < c.index := by
  have hsorted := pairwise_index_admitted range versions
  rw [hsplit, List.pairwise_append, List.pairwise_cons] at hsorted
  obtain ⟨-, ⟨hafter, -⟩, hbefore⟩ := hsorted
  exact ⟨fun c hc => hbefore c hc choice List.mem_cons_self, hafter⟩

/-- Which precedences occur among the candidates does not depend on the order of the list. -/
theorem mem_map_admitted_congr (h : versions.Perm versions') (r : Rank) :
    r ∈ (range.admitted versions).map (·.version.toRank) ↔
      r ∈ (range.admitted versions').map (·.version.toRank) := by
  have himp : ∀ {vs vs' : List Version}, (∀ v ∈ vs, v ∈ vs') →
      r ∈ (range.admitted vs).map (·.version.toRank) →
        r ∈ (range.admitted vs').map (·.version.toRank) := by
    intro vs vs' hsub hr
    obtain ⟨choice, hchoice, rfl⟩ := List.mem_map.1 hr
    obtain ⟨hmem, hadmits⟩ := mem_of_mem_admitted hchoice
    obtain ⟨choice', hchoice', hversion⟩ := exists_mem_admitted (hsub _ hmem) hadmits
    exact List.mem_map.2 ⟨choice', hchoice', congrArg Version.toRank hversion⟩
  exact ⟨himp fun v => h.mem_iff.1, himp fun v => h.mem_iff.2⟩

/-! ## Extreme choices -/

/-- A choice from a list of an admitted version with which every admitted version compares as
`within` allows, and whose index all admitted versions of its precedence have in the relation
`reaches`. With `Ordering.isLE` and `≤` it is the last of the highest, with `Ordering.isGE` and `≥`
the first of the lowest. -/
structure IsExtreme (range : Range) (versions : List Version) (within : Ordering → Bool)
    (reaches : Nat → Nat → Prop) (choice : Choice) : Prop where
  place : versions[choice.index]? = some choice.version
  admits : range.admits choice.version = true
  extreme : ∀ v ∈ versions, range.admits v = true → within (compare v choice.version) = true
  outermost : ∀ i v, versions[i]? = some v → range.admits v = true →
    compare v choice.version = .eq → reaches i choice.index

variable {within : Ordering → Bool} {reaches : Nat → Nat → Prop}

theorem IsExtreme.mem_admitted (h : range.IsExtreme versions within reaches choice) :
    choice ∈ range.admitted versions :=
  mem_admitted_iff.2 ⟨h.place, h.admits⟩

/-- What is said of the candidates is said of the list. -/
theorem IsExtreme.of_admitted (hmem : choice ∈ range.admitted versions)
    (h : ∀ c ∈ range.admitted versions, within (compare c.version choice.version) = true ∧
      (compare c.version choice.version = .eq → reaches c.index choice.index)) :
    range.IsExtreme versions within reaches choice where
  place := (mem_admitted_iff.1 hmem).1
  admits := (mem_admitted_iff.1 hmem).2
  extreme v hv hadmits := by
    obtain ⟨c, hc, rfl⟩ := exists_mem_admitted hv hadmits
    exact (h c hc).1
  outermost i v hi hadmits :=
    (h ⟨i, v⟩ (mem_admitted_iff.2 ⟨hi, hadmits⟩)).2

/-- **There is one extreme choice at most.** -/
theorem IsExtreme.unique [Std.Antisymm reaches]
    (hwithin : ∀ o : Ordering, within o = true → within o.swap = true → o = .eq)
    (h : range.IsExtreme versions within reaches choice)
    (h' : range.IsExtreme versions within reaches choice') : choice = choice' := by
  have hmem := mem_of_mem_admitted h.mem_admitted
  have hmem' := mem_of_mem_admitted h'.mem_admitted
  have heq : compare choice.version choice'.version = .eq := by
    refine hwithin _ (h'.extreme _ hmem.1 hmem.2) ?_
    rw [← Std.OrientedOrd.eq_swap]
    exact h.extreme _ hmem'.1 hmem'.2
  have heq' : compare choice'.version choice.version = .eq := by
    rw [Std.OrientedOrd.eq_swap (a := choice'.version), heq]
    rfl
  have hindex : choice.index = choice'.index :=
    Std.Antisymm.antisymm _ _ (h'.outermost _ _ h.place h.admits heq)
      (h.outermost _ _ h'.place h'.admits heq')
  have hversion : choice.version = choice'.version := by
    have hplace := h.place
    rw [hindex, h'.place] at hplace
    exact (Option.some.inj hplace).symm
  obtain ⟨i, v⟩ := choice
  obtain rfl : i = choice'.index := hindex
  obtain rfl : v = choice'.version := hversion
  rfl

/-! ## What the scans choose -/

/-- The scan for the highest version keeps the greatest rank, and the last one of equals. -/
theorem displaces_highest_iff (a b : Choice) :
    (compare b.version a.version).isGE = true ↔ a.version.toRank ≤ b.version.toRank :=
  Edge.admitsAbove_including

/-- The scan for the lowest version keeps the smallest rank, and the first one of equals. -/
theorem displaces_lowest_iff (a b : Choice) : (compare b.version a.version).isLT = true ↔
    OrderDual.toDual a.version.toRank < OrderDual.toDual b.version.toRank :=
  Edge.admitsBelow_excluding.trans OrderDual.toDual_lt_toDual.symm

theorem isExtreme_of_selectHighest? (h : range.selectHighest? versions = some choice) :
    range.IsExtreme versions Ordering.isLE (· ≤ ·) choice := by
  obtain ⟨before, after, hsplit, hbefore, hafter⟩ :=
    exists_split_of_displaces_iff_le displaces_highest_iff h
  obtain ⟨hindex, -⟩ := index_lt_of_admitted_eq hsplit
  refine .of_admitted (mem_of_best?_eq_some h) fun c hc => ?_
  rw [hsplit, List.mem_append, List.mem_cons] at hc
  rcases hc with hc | rfl | hc
  · exact ⟨Edge.admitsBelow_including.2 (hbefore c hc), fun _ => (hindex c hc).le⟩
  · exact ⟨Edge.admitsBelow_including.2 le_rfl, fun _ => le_rfl⟩
  · refine ⟨Edge.admitsBelow_including.2 (hafter c hc).le, fun heq => ?_⟩
    exact absurd (Version.compare_eq_eq_iff.1 heq) (hafter c hc).ne

theorem isExtreme_of_selectLowest? (h : range.selectLowest? versions = some choice) :
    range.IsExtreme versions Ordering.isGE (· ≥ ·) choice := by
  obtain ⟨before, after, hsplit, hbefore, hafter⟩ :=
    exists_split_of_displaces_iff_lt displaces_lowest_iff h
  obtain ⟨-, hindex⟩ := index_lt_of_admitted_eq hsplit
  refine .of_admitted (mem_of_best?_eq_some h) fun c hc => ?_
  rw [hsplit, List.mem_append, List.mem_cons] at hc
  rcases hc with hc | rfl | hc
  · have hlt := OrderDual.toDual_lt_toDual.1 (hbefore c hc)
    refine ⟨Edge.admitsAbove_including.2 hlt.le, fun heq => ?_⟩
    exact absurd (Version.compare_eq_eq_iff.1 heq) hlt.ne'
  · exact ⟨Edge.admitsAbove_including.2 le_rfl, fun _ => le_rfl⟩
  · exact ⟨Edge.admitsAbove_including.2 (OrderDual.toDual_le_toDual.1 (hafter c hc)),
      fun _ => (hindex c hc).le⟩

theorem selectHighest?_eq_none_iff :
    range.selectHighest? versions = none ↔ ∀ v ∈ versions, range.admits v = false :=
  best?_eq_none_iff.trans admitted_eq_nil_iff

theorem selectLowest?_eq_none_iff :
    range.selectLowest? versions = none ↔ ∀ v ∈ versions, range.admits v = false :=
  best?_eq_none_iff.trans admitted_eq_nil_iff

/-- An extreme choice is the answer of a scan that answers with one. -/
theorem IsExtreme.answer_eq [Std.Antisymm reaches]
    (hwithin : ∀ o : Ordering, within o = true → within o.swap = true → o = .eq)
    {answer : Option Choice}
    (hsome : ∀ c, answer = some c → range.IsExtreme versions within reaches c)
    (hnone : answer = none ↔ ∀ v ∈ versions, range.admits v = false)
    (h : range.IsExtreme versions within reaches choice) : answer = some choice := by
  cases answer with
  | none =>
    obtain ⟨hmem, hadmits⟩ := mem_of_mem_admitted h.mem_admitted
    exact absurd hadmits (by simp [hnone.1 rfl _ hmem])
  | some c => exact congrArg some ((hsome c rfl).unique hwithin h)

theorem selectHighest?_eq_some_iff : range.selectHighest? versions = some choice ↔
    range.IsExtreme versions Ordering.isLE (· ≤ ·) choice :=
  ⟨isExtreme_of_selectHighest?, fun h => h.answer_eq (by decide)
    (fun _ => isExtreme_of_selectHighest?) selectHighest?_eq_none_iff⟩

theorem selectLowest?_eq_some_iff : range.selectLowest? versions = some choice ↔
    range.IsExtreme versions Ordering.isGE (· ≥ ·) choice :=
  ⟨isExtreme_of_selectLowest?, fun h => h.answer_eq (by decide)
    (fun _ => isExtreme_of_selectLowest?) selectLowest?_eq_none_iff⟩

/-! ## Other orders of the list -/

theorem map_toRank_selectHighest?_congr (range : Range) (h : versions.Perm versions') :
    (range.selectHighest? versions).map (·.version.toRank) =
      (range.selectHighest? versions').map (·.version.toRank) :=
  (Seeks.of_displaces_iff_le displaces_highest_iff).map_best?_congr (mem_map_admitted_congr h)

theorem map_toRank_selectLowest?_congr (range : Range) (h : versions.Perm versions') :
    (range.selectLowest? versions).map (·.version.toRank) =
      (range.selectLowest? versions').map (·.version.toRank) :=
  (Seeks.of_displaces_iff_lt displaces_lowest_iff).map_best?_congr (mem_map_admitted_congr h)

/-- **What is chosen from a list.**  Nothing is chosen if the range admits no version of the list.
Otherwise the last of the highest admitted versions is the choice of `selectHighest?`, and the first
of the lowest that of `selectLowest?`. From the same versions in another order both choose a version
of the same precedence. -/
theorem selection_spec (range : Range) (versions : List Version) :
    ((range.selectHighest? versions = none ↔ ∀ v ∈ versions, range.admits v = false) ∧
      (∀ choice, range.selectHighest? versions = some choice ↔
        range.IsExtreme versions Ordering.isLE (· ≤ ·) choice) ∧
      ∀ versions', versions.Perm versions' →
        (range.selectHighest? versions).map (·.version.toRank) =
          (range.selectHighest? versions').map (·.version.toRank)) ∧
    ((range.selectLowest? versions = none ↔ ∀ v ∈ versions, range.admits v = false) ∧
      (∀ choice, range.selectLowest? versions = some choice ↔
        range.IsExtreme versions Ordering.isGE (· ≥ ·) choice) ∧
      ∀ versions', versions.Perm versions' →
        (range.selectLowest? versions).map (·.version.toRank) =
          (range.selectLowest? versions').map (·.version.toRank)) :=
  ⟨⟨selectHighest?_eq_none_iff, fun _ => selectHighest?_eq_some_iff,
      fun _ => map_toRank_selectHighest?_congr range⟩,
    ⟨selectLowest?_eq_none_iff, fun _ => selectLowest?_eq_some_iff,
      fun _ => map_toRank_selectLowest?_congr range⟩⟩

/-- Two versions that differ in their build metadata, with a lower one after them. The second of the
two is chosen as the highest, the first as the lowest, and the last one is not admitted. -/
theorem selection_spec_builds : ∃ (range : Range) (v w : Version),
    parse ">1.0.0" {} = .ok range ∧ v ≠ w ∧
      range.selectHighest? [v, w, .release 1 0 0] = some ⟨1, w⟩ ∧
        range.selectLowest? [v, w, .release 1 0 0] = some ⟨0, v⟩ ∧
          (range.selectHighest? [.release 1 0 0, w, v]).map (·.version.toRank) = some w.toRank ∧
            range.IsExtreme [v, w, .release 1 0 0] Ordering.isLE (· ≤ ·) ⟨1, w⟩ := by
  let range : Range := { sets := [⟨[⟨.greater, { Version.release 1 0 0 with
    raw := some "1.0.0", options := { loose := true } }⟩]⟩] }
  let v : Version := { Version.release 1 1 0 with build := ["a"] }
  let w : Version := { Version.release 1 1 0 with build := ["b"] }
  have hhighest : range.selectHighest? [v, w, .release 1 0 0] = some ⟨1, w⟩ := by decide +kernel
  have hreverse : [v, w, .release 1 0 0].Perm [.release 1 0 0, w, v] :=
    (List.reverse_perm [v, w, .release 1 0 0]).symm
  obtain ⟨⟨-, hchoice, hperm⟩, -⟩ := selection_spec range [v, w, .release 1 0 0]
  have hrank := hperm _ hreverse
  rw [hhighest] at hrank
  exact ⟨range, v, w, by decide +kernel, by decide, hhighest, by decide +kernel, hrank.symm,
    (hchoice _).1 hhighest⟩

end Range
end SemanticVersioning
