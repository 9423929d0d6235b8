import Mathlib.Data.List.Forall2
import SemanticVersioning.Proofs.Range.Expansion
import SemanticVersioning.Proofs.Range.Partition

/-!
# What the inclusion of pre-releases adds

The option to include all pre-releases acts twice. It lowers the floors that are made up for partial
operands, and it lifts the exclusion of pre-releases. So one text is read as two ranges with
different comparators, and these are applied by different rules.

The two lists of comparators have the same length and agree place by place, up to the floors
(`Comparator.Widens`, `Term.forall₂_widens`). A lowered floor admits what the floor admits, and of
its core it admits the pre-releases besides (`Comparator.Widens.test_of_test`). Releases see no
difference (`Comparator.Widens.test_eq`), and the exclusion does not concern them. Both together are
`Range.admits_of_include`: the option only ever adds pre-releases.
-/

namespace SemanticVersioning

/-! ## Comparators with and without the option -/

/-- A comparator, and the one in its place if all pre-releases are included: a floor is lowered to
the first pre-release of its core, and each other comparator demands the same. -/
inductive Comparator.Widens : Comparator → Comparator → Prop
  | floor (major minor patch : Nat) :
      Widens (.floor false major minor patch) (.floor true major minor patch)
  | same {c d : Comparator} : c.demand = d.demand → Widens c d

namespace Comparator

attribute [simp] Widens.floor

@[simp] theorem widens_ceiling (major minor patch : Nat) :
    Widens (ceiling major minor patch) (ceiling major minor patch) :=
  .same rfl

namespace Widens

variable {c d : Comparator} {v : Version}

/-- What is not below a release is not of a lower core, so it is not below the pre-releases of that
release either. -/
theorem test_of_test (h : Widens c d) (hv : c.test v = true) : d.test v = true := by
  cases h with
  | same hdemand => rwa [← test_eq_of_demand_eq hdemand]
  | floor major minor patch =>
    rw [test_floor (Or.inr rfl)]
    exact Version.core_not_lt_of_isGE (w := .release major minor patch) hv

/-- A release is not below a release exactly if it is not below its pre-releases. -/
theorem test_eq (h : Widens c d) (hv : v.isPrerelease = false) : c.test v = d.test v := by
  cases h with
  | same hdemand => exact test_eq_of_demand_eq hdemand v
  | floor major minor patch =>
    rw [Bool.eq_iff_iff, test_floor (Or.inl hv), test_floor (Or.inl hv)]

end Widens

theorem all_test_of_forall₂_widens {cs ds : List Comparator} (h : List.Forall₂ Widens cs ds)
    {v : Version} (hv : cs.all (·.test v) = true) : ds.all (·.test v) = true := by
  induction h with
  | nil => rfl
  | cons hcd _ ih =>
    rw [List.all_cons, Bool.and_eq_true] at hv ⊢
    exact ⟨hcd.test_of_test hv.1, ih hv.2⟩

theorem all_test_eq_of_forall₂_widens {cs ds : List Comparator} (h : List.Forall₂ Widens cs ds)
    {v : Version} (hv : v.isPrerelease = false) :
    cs.all (·.test v) = ds.all (·.test v) := by
  induction h with
  | nil => rfl
  | cons hcd _ ih => rw [List.all_cons, List.all_cons, hcd.test_eq hv, ih]

end Comparator

/-! ## Terms with and without the option -/

/-- Two changes to versions that put different attachments on the same ranks. -/
def SameRanks (f g : Version → Version) : Prop :=
  ∀ v, (f v).toRank = (g v).toRank

variable {f g : Version → Version}

theorem SameRanks.widens (h : SameRanks f g) (op : Operator) (v : Version) :
    Comparator.Widens ⟨op, f v⟩ ⟨op, g v⟩ :=
  .same (Prod.ext rfl (h v))

theorem SameRanks.core_eq (h : SameRanks f g) (v : Version) : (f v).core = (g v).core :=
  congrArg Rank.core (h v)

namespace Extent

open Comparator

theorem forall₂_widens_compared (h : SameRanks f g) (e : Extent) (op : Operator) :
    List.Forall₂ Widens ((e.map f).compared false op) ((e.map g).compared true op) := by
  have hlowest : Widens (.below .lowest) (.below .lowest) := .same rfl
  cases e <;> cases op <;> simp [compared, agreeing, Extent.map, hlowest, h.widens]

theorem forall₂_widens_tilde (h : SameRanks f g) (e : Extent) :
    List.Forall₂ Widens ((e.map f).tilde false) ((e.map g).tilde true) := by
  cases e with
  | full v =>
    simp [tilde, Extent.map, atLeast, h.core_eq, h.widens]
  | any => simp [tilde, Extent.map]
  | major => simp [tilde, Extent.map]
  | minor => simp [tilde, Extent.map]

/-- The ceiling of a caret is found from the core alone. -/
theorem forall₂_widens_caret (h : SameRanks f g) (e : Extent) :
    List.Forall₂ Widens ((e.map f).caret false) ((e.map g).caret true) := by
  cases e with
  | any => simp [caret, Extent.map]
  | major => simp [caret, Extent.map]
  | minor M m => cases M <;> simp [caret, Extent.map]
  | full v =>
    have hlower : Widens (.atLeast (f v)) (.atLeast (g v)) := h.widens _ v
    simp only [Extent.map, caret, h.core_eq]
    split <;> simp [hlower]

theorem forall₂_widens_lowerEnd (h : SameRanks f g) (e : Extent) :
    List.Forall₂ Widens ((e.map f).lowerEnd false) ((e.map g).lowerEnd true) := by
  cases e <;> simp [lowerEnd, Extent.map, atLeast, h.widens]

theorem forall₂_widens_upperEnd (h : SameRanks f g) (e : Extent) :
    List.Forall₂ Widens (e.map f).upperEnd (e.map g).upperEnd := by
  cases e <;> simp [upperEnd, Extent.map, h.widens]

end Extent

variable {narrow wide : Options}

theorem Operand.sameRanks_resolve (o : Operand) (narrow wide : Options) :
    SameRanks (fun v => { v with build := [], raw := some o.text, options := narrow.loosely })
      fun v => { v with build := [], raw := some o.text, options := wide.loosely } :=
  fun _ => rfl

/-- **The comparators of a term with and without the option agree place by place**, up to the
floors. -/
theorem Term.forall₂_widens (hnarrow : narrow.includePrerelease = false)
    (hwide : wide.includePrerelease = true) (x : Term Operand) :
    List.Forall₂ Comparator.Widens (x.comparators narrow) (x.comparators wide) := by
  rw [comparators, comparators, hnarrow, hwide]
  cases x with
  | compare op o => exact Extent.forall₂_widens_compared (o.sameRanks_resolve narrow wide) _ op
  | tilde o => exact Extent.forall₂_widens_tilde (o.sameRanks_resolve narrow wide) _
  | caret o => exact Extent.forall₂_widens_caret (o.sameRanks_resolve narrow wide) _
  | hyphen lower upper =>
    exact List.rel_append (Extent.forall₂_widens_lowerEnd (lower.sameRanks_resolve narrow wide) _)
      (Extent.forall₂_widens_upperEnd (upper.sameRanks_resolve narrow wide) _)

theorem forall₂_widens_flatMap (hnarrow : narrow.includePrerelease = false)
    (hwide : wide.includePrerelease = true) (segment : List (Term Operand)) :
    List.Forall₂ Comparator.Widens (segment.flatMap (Term.comparators narrow))
      (segment.flatMap (Term.comparators wide)) := by
  induction segment with
  | nil => exact .nil
  | cons x segment ih =>
    rw [List.flatMap_cons, List.flatMap_cons]
    exact List.rel_append (x.forall₂_widens hnarrow hwide) ih

/-! ## Ranges with and without the option -/

namespace Range

/-- A range that was read admits a version if the comparators of a segment do. -/
theorem admits_ofAlternatives {alternatives : Alternatives Operand} {options : Options}
    {v : Version} :
    (ofAlternatives options (alternatives.map (Operand.resolve options))).admits v =
      alternatives.segments.any fun segment =>
        ComparatorSet.admits ⟨segment.flatMap (Term.comparators options)⟩
          options.includePrerelease v := by
  rw [admits, ofAlternatives_sets, List.any_map]
  rfl

/-- **Including pre-releases only ever adds pre-releases.**  A text that is a range under some
options is one with and without the inclusion of pre-releases. Each version that the range admits
without it is admitted with it, and each release is admitted either both ways or neither way. -/
theorem admits_of_include {text : String} {options : Options} {range : Range}
    (h : parse text options = .ok range) :
    ∃ narrow wide : Range,
      parse text { options with includePrerelease := false } = .ok narrow ∧
      parse text { options with includePrerelease := true } = .ok wide ∧
      (∀ v : Version, narrow.admits v = true → wide.admits v = true) ∧
      ∀ v : Version, v.isPrerelease = false → narrow.admits v = wide.admits v := by
  obtain ⟨alternatives, htext, -⟩ := parse_eq_ok_iff.1 h
  refine ⟨_, _, parse_eq_ok_iff.2 ⟨alternatives, htext, rfl⟩,
    parse_eq_ok_iff.2 ⟨alternatives, htext, rfl⟩, fun v hv => ?_, fun v hv => ?_⟩
  · rw [admits_ofAlternatives, List.any_eq_true] at hv ⊢
    obtain ⟨segment, hsegment, hadmits⟩ := hv
    refine ⟨segment, hsegment, ?_⟩
    rw [ComparatorSet.admits_eq_test (Or.inr rfl)]
    exact Comparator.all_test_of_forall₂_widens (forall₂_widens_flatMap rfl rfl segment)
      (ComparatorSet.test_of_admits hadmits)
  · rw [admits_ofAlternatives, admits_ofAlternatives]
    refine congrArg alternatives.segments.any (funext fun segment => ?_)
    rw [ComparatorSet.admits_eq_test (Or.inl hv), ComparatorSet.admits_eq_test (Or.inl hv)]
    exact Comparator.all_test_eq_of_forall₂_widens (forall₂_widens_flatMap rfl rfl segment) hv

/-- The option lowers the floor of `~1.2` and lifts the exclusion: `1.2.0-rc` and `1.2.5-rc` are
added, while the releases `1.2.5` and `1.3.0` stay in and out. -/
theorem admits_of_include_tilde : ∃ narrow wide : Range,
    parse "~1.2 || 2.0.0-rc" {} = .ok narrow ∧
    parse "~1.2 || 2.0.0-rc" { includePrerelease := true } = .ok wide ∧
    narrow.admits { core := ⟨1, 2, 0⟩, preRelease := [.alphanumeric "rc"] } = false ∧
    wide.admits { core := ⟨1, 2, 0⟩, preRelease := [.alphanumeric "rc"] } = true ∧
    wide.admits { core := ⟨2, 0, 0⟩, preRelease := [.alphanumeric "rc"] } = true ∧
    wide.admits (.release 1 2 5) = true ∧ wide.admits (.release 1 3 0) = false := by
  let rc (options : Options) : Version :=
    { core := ⟨2, 0, 0⟩, preRelease := [.alphanumeric "rc"], raw := some "2.0.0-rc", options }
  have hwithout : parse "~1.2 || 2.0.0-rc" {} = .ok
      { sets := [⟨[.floor false 1 2 0, .ceiling 1 3 0]⟩, ⟨[⟨.exact, rc { loose := true }⟩]⟩] } := by
    decide +kernel
  have hwith : parse "~1.2 || 2.0.0-rc" { includePrerelease := true } = .ok
      { sets := [⟨[.floor true 1 2 0, .ceiling 1 3 0]⟩,
          ⟨[⟨.exact, rc { loose := true, includePrerelease := true }⟩]⟩]
        options := { includePrerelease := true } } := by
    decide +kernel
  obtain ⟨narrow, wide, hnarrow, hwide, hadds, hreleases⟩ := admits_of_include hwithout
  obtain rfl := Except.ok.inj (hnarrow.symm.trans hwithout)
  obtain rfl := Except.ok.inj (hwide.symm.trans hwith)
  refine ⟨_, _, hwithout, hwith, by decide +kernel, by decide +kernel,
    hadds _ (by decide +kernel), ?_, ?_⟩
  · rw [← hreleases _ rfl]
    decide +kernel
  · rw [← hreleases _ rfl]
    decide +kernel

end Range
end SemanticVersioning
