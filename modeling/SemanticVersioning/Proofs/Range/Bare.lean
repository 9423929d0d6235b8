import SemanticVersioning.Proofs.Range.Demands
import SemanticVersioning.Proofs.Range.RoundTrip

/-!
# Ranges without attachments

A bare version is a rank and nothing else (`Version.bare`). What is done with a range may be done with
its bare comparators.

* The *meaning of a term* is found from the ranks of its operands: to expand the bare term is to bare
  its comparators (`Term.expand_bare`).
* The *answers* depend on demands, which are the same (`Range.agrees_of_bare_eq`).
* The *text* shows ranks and build metadata, and the versions of a range that was read have no build
  metadata (`Range.render_bare`). The lowest version of the range has none either
  (`Range.build_of_minimum?_eq_some`).

Two ranges that were read are therefore alike in all that can be asked of them if they are the same
when bare (`Range.Alike`).
-/

namespace SemanticVersioning

open Reader Text

/-! ## Bare versions -/

namespace Version

variable {v w : Version}

/-- The rank of a version, without any attachments. -/
def bare (v : Version) : Version :=
  { toRank := v.toRank }

@[simp] theorem toRank_bare (v : Version) : v.bare.toRank = v.toRank := rfl

theorem bare_eq_bare_iff : v.bare = w.bare ↔ v.toRank = w.toRank :=
  ⟨fun h => by rw [← toRank_bare v, h, toRank_bare], fun h => by rw [bare, h, bare]⟩

theorem render_bare (h : v.build = []) : v.bare.render = v.render := by
  simp only [render, bare, h]

/-- Of versions without build metadata the text is found from the rank. -/
theorem render_eq_of_toRank_eq (hv : v.build = []) (hw : w.build = []) (h : v.toRank = w.toRank) :
    v.render = w.render := by
  rw [← render_bare hv, ← render_bare hw, bare_eq_bare_iff.2 h]

theorem build_successor (v : Version) : v.successor.build = [] := by
  rw [successor]
  split <;> rfl

end Version

/-! ## Bare terms -/

/-- A comparator with a bare version. -/
def Comparator.bare (c : Comparator) : Comparator :=
  ⟨c.operator, c.version.bare⟩

theorem Comparator.render_bare {c : Comparator} (h : c.version.build = []) :
    c.bare.render = c.render := by
  rw [render, render, bare, Version.render_bare h]

/-- An operand without its text and without attachments. -/
def Operand.bare (operand : Operand) : Extent :=
  operand.extent.map Version.bare

@[simp] theorem Operand.map_bare_resolve (options : Options) (operand : Operand) :
    (operand.resolve options).map Version.bare = operand.bare := by
  obtain ⟨text, e⟩ := operand
  cases e <;> rfl

namespace Extent

open Comparator

variable (e : Extent) (includePrerelease : Bool)

@[simp] theorem bare_floor (major minor patch : Nat) :
    (floor includePrerelease major minor patch).bare =
      floor includePrerelease major minor patch := by
  cases includePrerelease <;> rfl

@[simp] theorem bare_ceiling (major minor patch : Nat) :
    (ceiling major minor patch).bare = ceiling major minor patch := rfl

theorem compared_bare (op : Operator) : (e.map Version.bare).compared includePrerelease op =
    (e.compared includePrerelease op).map Comparator.bare := by
  cases e with
  | full v => rfl
  | any => cases op <;> rfl
  | major => cases op <;> simp [compared, agreeing, Extent.map]
  | minor => cases op <;> simp [compared, agreeing, Extent.map]

theorem tilde_bare : (e.map Version.bare).tilde includePrerelease =
    (e.tilde includePrerelease).map Comparator.bare := by
  cases e with
  | full v => rfl
  | any => rfl
  | major => simp [tilde, Extent.map]
  | minor => simp [tilde, Extent.map]

theorem caret_bare : (e.map Version.bare).caret includePrerelease =
    (e.caret includePrerelease).map Comparator.bare := by
  cases e with
  | any => rfl
  | major => simp [caret, Extent.map]
  | minor M => cases M <;> simp [caret, Extent.map]
  | full v =>
    change (full v.bare).caret includePrerelease = _
    simp only [caret, Version.toRank_bare]
    split <;> rfl

theorem lowerEnd_bare : (e.map Version.bare).lowerEnd includePrerelease =
    (e.lowerEnd includePrerelease).map Comparator.bare := by
  cases e with
  | full v => rfl
  | any => rfl
  | major => simp [lowerEnd, Extent.map]
  | minor => simp [lowerEnd, Extent.map]

theorem upperEnd_bare : (e.map Version.bare).upperEnd = e.upperEnd.map Comparator.bare := by
  cases e <;> rfl

end Extent

/-- **The meaning of a bare term** is that of the term, made bare. -/
theorem Term.expand_bare (x : Term Extent) (includePrerelease : Bool) :
    (x.map (Extent.map Version.bare)).expand includePrerelease =
      (x.expand includePrerelease).map Comparator.bare := by
  cases x with
  | compare op e => exact e.compared_bare includePrerelease op
  | tilde e => exact e.tilde_bare includePrerelease
  | caret e => exact e.caret_bare includePrerelease
  | hyphen a b =>
    simp only [map, expand, a.lowerEnd_bare, b.upperEnd_bare, List.map_append]

/-! ## Bare ranges -/

namespace ComparatorSet

/-- A set with bare comparators. -/
def bare (set : ComparatorSet) : ComparatorSet :=
  ⟨set.comparators.map Comparator.bare⟩

theorem demands_bare (set : ComparatorSet) : set.bare.demands = set.demands := by
  rw [demands, demands, bare, List.map_map]
  rfl

theorem agrees_bare (set : ComparatorSet) : set.Agrees set.bare :=
  fun demand => by rw [demands_bare]

end ComparatorSet

namespace Range

variable {a b range : Range}

/-- A range with bare comparators. -/
def bare (range : Range) : Range where
  sets := range.sets.map ComparatorSet.bare
  options := range.options

theorem agrees_bare (range : Range) : range.Agrees range.bare where
  options := rfl
  forth s hs := ⟨s.bare, List.mem_map_of_mem hs, s.agrees_bare⟩
  back t ht := by
    obtain ⟨s, hs, rfl⟩ := List.mem_map.1 ht
    exact ⟨s, hs, s.agrees_bare.symm⟩

theorem agrees_of_bare_eq (h : a.bare = b.bare) : a.Agrees b :=
  a.agrees_bare.trans (h ▸ b.agrees_bare.symm)

theorem sameDemands_of_bare_eq (h : a.bare = b.bare) : a.sameDemands b = true := by
  have hdemands : ∀ range : Range, range.bare.sets.map (·.demands) = range.sets.map (·.demands) := by
    intro range
    rw [bare, List.map_map]
    exact List.map_congr_left fun s _ => s.demands_bare
  have hoptions : a.bare.options = b.bare.options := congrArg Range.options h
  rw [sameDemands_iff, ← hdemands a, ← hdemands b, h]
  exact ⟨rfl, hoptions⟩

/-- The bare range of alternatives is determined by the bare operands. -/
theorem bare_ofAlternatives (options : Options) (alternatives : Alternatives Operand) :
    (ofAlternatives options (alternatives.map (Operand.resolve options))).bare =
      ofAlternatives options (alternatives.map Operand.bare) := by
  have hterm : ∀ x : Term Operand,
      (x.map Operand.bare).expand options.includePrerelease =
        ((x.map (Operand.resolve options)).expand options.includePrerelease).map
          Comparator.bare := by
    intro x
    rw [← Term.expand_bare]
    cases x <;> simp [Term.map]
  simp only [bare, ofAlternatives, Alternatives.map, List.map_map, Function.comp_def,
    List.flatMap_map, ComparatorSet.bare, List.map_flatMap, hterm]

/-- Whether no version of a range has build metadata. -/
def Buildless (range : Range) : Prop :=
  ∀ set ∈ range.sets, ∀ c ∈ set.comparators, c.version.build = []

theorem buildless_of_parse {text : String} {options : Options}
    (h : parse text options = .ok range) : range.Buildless :=
  fun set hset c hc => (plain_of_parse h set hset c hc).build

theorem render_bare (h : range.Buildless) : range.bare.render = range.render :=
  render_map (f := Comparator.bare) (fun set hset c hc => Comparator.render_bare (h set hset c hc))
    range.options

/-- The lowest version is made up, a successor or the version of a comparator. -/
theorem build_of_minimum?_eq_some {m : Version} (h : range.Buildless)
    (hm : range.minimum? = some m) : m.build = [] := by
  rcases exists_start_of_minimum?_eq_some hm with rfl | rfl | ⟨set, hset, c, hc, hcm⟩
  · rfl
  · rfl
  · rcases Comparator.start?_eq_some_iff.1 hcm with ⟨-, rfl⟩ | ⟨-, rfl⟩
    · exact c.version.build_successor
    · exact h set hset c hc

/-- Two ranges that are alike in all that can be asked of them: they are equal and have the same text,
they admit the same versions and meet the same ranges, whichever one is asked, and their lowest
versions have the same precedence and the same text. -/
structure Alike (a b : Range) : Prop where
  sameDemands : a.sameDemands b = true
  render : a.render = b.render
  admits : ∀ v : Version, a.admits v = b.admits v
  meets : ∀ c : Range, a.meets c = b.meets c
  meets_right : ∀ c : Range, c.meets a = c.meets b
  minimum : a.minimum?.map (·.toRank) = b.minimum?.map (·.toRank)
  minimum_render : a.minimum?.map (·.render) = b.minimum?.map (·.render)

/-- **Ranges that are the same when bare are alike**, if they have no build metadata. -/
theorem alike_of_bare_eq (ha : a.Buildless) (hb : b.Buildless) (h : a.bare = b.bare) :
    a.Alike b where
  sameDemands := sameDemands_of_bare_eq h
  render := by rw [← render_bare ha, ← render_bare hb, h]
  admits := (agrees_of_bare_eq h).admits_eq
  meets := (agrees_of_bare_eq h).meets_eq
  meets_right := (agrees_of_bare_eq h).meets_eq_right
  minimum := (agrees_of_bare_eq h).minimum?_eq
  minimum_render := by
    have hrank := (agrees_of_bare_eq h).minimum?_eq
    cases hm : a.minimum? with
    | none =>
      cases hn : b.minimum? with
      | none => rfl
      | some n => simp [hm, hn] at hrank
    | some m =>
      cases hn : b.minimum? with
      | none => simp [hm, hn] at hrank
      | some n =>
        rw [hm, hn, Option.map_some, Option.map_some, Option.some_inj] at hrank
        exact congrArg some (Version.render_eq_of_toRank_eq (build_of_minimum?_eq_some ha hm)
          (build_of_minimum?_eq_some hb hn) hrank)

end Range
end SemanticVersioning
