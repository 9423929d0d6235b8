import Mathlib.Control.Monad.Basic
import SemanticVersioning.Proofs.Range.Expansion
import SemanticVersioning.Proofs.Range.OperandText
import SemanticVersioning.Proofs.Version.RoundTrip
import SemanticVersioning.Range.Printer

/-!
# The normal form of a range

A range is written with its comparators, not with the terms that they come from. Its text is again
a text of the notation, one that has operators in front of complete operands and no other form. So
it is read as the range was, comparator for comparator. A hyphenated pair or a pre-release without
its dash cannot be seen in it instead, since each text of the notation is read as what it writes
(`Range.parse_eq_ok_iff`): it is enough that the text of a range writes its comparators.

* `Comparator.term`, `ComparatorSet.terms`, `Range.written`: the terms that a text of a comparator,
  a set and a range has. The set without comparators is written by the operand that gives nothing.
* `Range.Writable`: the versions of the comparators are ones that the notation has.
* `Range.parse_render`: the text of a writable range is read as the range with other attachments,
  `Range.reread`.

A range that was read is writable but for the numbers of its comparators (`Range.plain_of_parse`).
Those are written by the user, or made up from the numbers that are.
-/

namespace SemanticVersioning

open Reader Text

/-! ## What the text of a range writes -/

/-- The operand that the text of a version writes. -/
def Version.operand (v : Version) : Operand :=
  ⟨v.render, .full { v with raw := none, options := {} }⟩

/-- The term that the text of a comparator writes. -/
def Comparator.term (c : Comparator) : Term Operand :=
  .compare c.operator c.version.operand

/-- The terms that the text of a comparator set writes. -/
def ComparatorSet.terms (set : ComparatorSet) : List (Term Operand) :=
  match set.comparators with
  | [] => [.compare .exact ⟨"*", .any⟩]
  | cs => cs.map Comparator.term

/-- The alternatives that the text of a range writes. -/
def Range.written (range : Range) : Alternatives Operand :=
  ⟨range.sets.map ComparatorSet.terms⟩

/-- Whether a range has a text that is read as the range. -/
structure Range.Writable (range : Range) : Prop where
  ne_nil : range.sets ≠ []
  versions : ∀ set ∈ range.sets, ∀ c ∈ set.comparators, c.version.Writable

theorem Version.Writable.writesExtent {v : Version} (h : v.Writable) :
    WritesExtent v.render.toList (.full { v with raw := none, options := {} }) := by
  rw [toList_render]
  exact .more (.number (.repr h.core.major true)) (.more (.number (.repr h.core.minor true))
    (.intro (.number (.repr h.core.patch true)) (h.writesQualifier true true)))

theorem Version.Writable.writesOperand {v : Version} (h : v.Writable) :
    WritesOperand v.render.toList v.operand := by
  have hoperand := WritesOperand.bare h.writesExtent
  rwa [String.ofList_toList] at hoperand

/-- A comparator is written as its version alone, or with a sign in front. -/
theorem Comparator.toList_render_cases (c : Comparator) :
    (c.operator = .exact ∧ c.render.toList = c.version.render.toList) ∨
      ∃ sign, WritesOperator sign c.operator ∧
        c.render.toList = sign ++ c.version.render.toList := by
  obtain ⟨op, v⟩ := c
  rw [render, String.toList_append]
  cases op with
  | exact => exact Or.inl ⟨rfl, List.nil_append _⟩
  | greater => exact Or.inr ⟨Operator.greater.symbol.toList, .greater, rfl⟩
  | greaterOrEqual => exact Or.inr ⟨Operator.greaterOrEqual.symbol.toList, .greaterOrEqual, rfl⟩
  | less => exact Or.inr ⟨Operator.less.symbol.toList, .less, rfl⟩
  | lessOrEqual => exact Or.inr ⟨Operator.lessOrEqual.symbol.toList, .lessOrEqual, rfl⟩

theorem Comparator.writesTerm {c : Comparator} (h : c.version.Writable) :
    WritesTerm c.render.toList c.term := by
  rcases c.toList_render_cases with ⟨hop, htext⟩ | ⟨sign, hsign, htext⟩
  · rw [htext, term, hop]
    exact .plain h.writesOperand
  · rw [htext, ← List.nil_append c.version.render.toList]
    exact .compare hsign (by simp) h.writesOperand

theorem writesTerm_wildcard : WritesTerm "*".toList (.compare .exact ⟨"*", .any⟩) :=
  .plain (.bare (.last (.wildcard rfl)))

namespace ComparatorSet

/-- The text of a set is that of its comparators, or the wildcard. -/
theorem toList_render_of_ne_nil {set : ComparatorSet} (h : set.comparators ≠ []) :
    set.render.toList = [' '].intercalate (set.comparators.map fun c => c.render.toList) := by
  obtain ⟨cs⟩ := set
  cases cs with
  | nil => exact absurd rfl h
  | cons c cs =>
    rw [render_cons, String.toList_intercalate, List.map_map]
    rfl

theorem terms_of_ne_nil {set : ComparatorSet} (h : set.comparators ≠ []) :
    set.terms = set.comparators.map Comparator.term := by
  obtain ⟨cs⟩ := set
  cases cs with
  | nil => exact absurd rfl h
  | cons c cs => rfl

theorem isLayoutRun_space : IsLayoutRun [' '] :=
  ⟨by simp, List.all_eq_true.1 rfl⟩

theorem writesSegment {set : ComparatorSet} (h : ∀ c ∈ set.comparators, c.version.Writable) :
    WritesSegment set.render.toList set.terms := by
  by_cases hne : set.comparators = []
  · obtain ⟨cs⟩ := set
    obtain rfl : cs = [] := hne
    exact .present (.single writesTerm_wildcard)
  · rw [toList_render_of_ne_nil hne, terms_of_ne_nil hne]
    exact .present (.intercalate isLayoutRun_space hne fun c hc => Comparator.writesTerm (h c hc))

end ComparatorSet

theorem isBars_bars : IsBars ['|', '|'] :=
  .intro (u := []) (w := []) (by simp) (by simp)

theorem Range.toList_render_of_ne_nil {range : Range} (h : range.sets ≠ []) :
    range.render.toList =
      ['|', '|'].intercalate (range.sets.map fun set => set.render.toList) := by
  obtain ⟨sets, options⟩ := range
  cases sets with
  | nil => exact absurd rfl h
  | cons set sets =>
    have hrender : render ⟨set :: sets, options⟩ =
        "||".intercalate ((set :: sets).map (·.render)) := rfl
    rw [hrender, String.toList_intercalate, List.map_map]
    rfl

/-- **The text of a writable range writes its comparators.** -/
theorem Range.Writable.writesAlternatives {range : Range} (h : range.Writable) :
    WritesAlternatives range.render.toList range.written := by
  rw [toList_render_of_ne_nil h.ne_nil]
  exact .intercalate isBars_bars h.ne_nil fun set hset =>
    ComparatorSet.writesSegment (h.versions set hset)

/-! ## Nothing is stripped from the text of a range -/

theorem WritesOperator.tight {t : List Char} {op : Operator} (h : WritesOperator t op) : Tight t :=
  .of_forall h.isOperatorChar.1 fun c hc => isOperatorChar_apart_isBlank c (h.isOperatorChar.2 c hc)

theorem Comparator.tight {c : Comparator} (h : c.version.Worded) : Tight c.render.toList := by
  rcases c.toList_render_cases with ⟨-, htext⟩ | ⟨sign, hsign, htext⟩
  · rw [htext]
    exact h.tight
  · rw [htext, ← List.nil_append c.version.render.toList]
    exact hsign.tight.append h.tight []

theorem ComparatorSet.tight {set : ComparatorSet} (h : ∀ c ∈ set.comparators, c.version.Worded) :
    Tight set.render.toList := by
  by_cases hne : set.comparators = []
  · obtain ⟨cs⟩ := set
    obtain rfl : cs = [] := hne
    refine .of_forall (by simp) fun c hc => ?_
    obtain rfl : c = '*' := by simpa using hc
    decide
  · rw [toList_render_of_ne_nil hne]
    refine tight_intercalate [' '] (by simpa using hne) fun t ht => ?_
    obtain ⟨c, hc, rfl⟩ := List.mem_map.1 ht
    exact Comparator.tight (h c hc)

theorem Range.tight {range : Range} (hne : range.sets ≠ [])
    (h : ∀ set ∈ range.sets, ∀ c ∈ set.comparators, c.version.Worded) :
    Tight range.render.toList := by
  rw [toList_render_of_ne_nil hne]
  refine tight_intercalate ['|', '|'] (by simpa using hne) fun t ht => ?_
  obtain ⟨set, hset, rfl⟩ := List.mem_map.1 ht
  exact ComparatorSet.tight (h set hset)

/-! ## Reading the text of a range -/

/-- A comparator as it is read from its text: what it demands is unchanged, and its version
remembers that text. -/
def Comparator.reread (options : Options) (c : Comparator) : Comparator :=
  ⟨c.operator, { c.version with
    build := [], raw := some c.version.render, options := options.loosely }⟩

/-- A range as it is read from its text. -/
def Range.reread (options : Options) (range : Range) : Range where
  sets := range.sets.map fun set => ⟨set.comparators.map (Comparator.reread options)⟩
  options := options

/-- The terms in the text of a set have its comparators, one each. -/
theorem ComparatorSet.comparators_terms (options : Options) (set : ComparatorSet) :
    set.terms.flatMap (Term.comparators options) =
      set.comparators.map (Comparator.reread options) := by
  by_cases hne : set.comparators = []
  · obtain ⟨cs⟩ := set
    obtain rfl : cs = [] := hne
    rfl
  · rw [terms_of_ne_nil hne, List.flatMap_map]
    exact List.map_eq_flatMap.symm

theorem Range.ofAlternatives_written (options : Options) (range : Range) :
    ofAlternatives options (range.written.map (Operand.resolve options)) =
      range.reread options := by
  have hsets := ofAlternatives_sets options range.written
  rw [written, List.map_map] at hsets
  exact congrArg (Range.mk · options) (hsets.trans (List.map_congr_left fun set _ =>
    congrArg ComparatorSet.mk (set.comparators_terms options)))

/-- **The text of a range is read as the range**, comparator for comparator. -/
theorem Range.parse_render {range : Range} (h : range.Writable) (options : Options) :
    parse range.render options = .ok (range.reread options) := by
  have htight : Tight range.render.toList :=
    range.tight h.ne_nil fun set hset c hc => (h.versions set hset c hc).toWorded
  refine parse_eq_ok_iff.2 ⟨range.written, ?_, (ofAlternatives_written options range).symm⟩
  rw [htight.trim_eq]
  exact h.writesAlternatives

/-! ## Ranges that were read -/

/-- Whether a version has no build metadata, and its identifiers are ones that the notation has. -/
structure Version.Plain (v : Version) : Prop where
  identifiers : ∀ i ∈ v.preRelease, i.Writable
  build : v.build = []

theorem Version.Plain.worded {v : Version} (h : v.Plain) : v.Worded where
  identifiers := h.identifiers
  build := by simp [h.build]

/-- The version of a comparator is plain: it is made up, or it is the one of an operand. -/
theorem Comparator.DrawnFrom.plain {includePrerelease : Bool} {options : Options} {t : List Char}
    {o : Operand} {c : Comparator} (hc : c.DrawnFrom includePrerelease (o.resolve options))
    (ho : WritesOperand t o) : c.version.Plain := by
  have hrelease : ∀ major minor patch, (Version.release major minor patch).Plain :=
    fun _ _ _ => ⟨nofun, rfl⟩
  have hnumbered : ∀ major minor patch, (Version.numbered major minor patch 0).Plain := by
    refine fun _ _ _ => ⟨fun i hi => ?_, rfl⟩
    obtain rfl := List.mem_singleton.1 hi
    exact Nat.zero_le maxSafeInteger
  cases hc with
  | @floor major minor patch _ =>
    cases includePrerelease with
    | true => exact hnumbered major minor patch
    | false => exact hrelease major minor patch
  | @ceiling major minor patch _ => exact hnumbered major minor patch
  | written hv =>
    obtain ⟨w, hw, rfl⟩ := Operand.resolve_eq_full_iff.1 hv
    exact ⟨(ho.writesVersion hw).writable.identifiers, rfl⟩

namespace Range

variable {text : String} {options : Options} {range : Range}

/-- Each comparator of a range is drawn from an operand that is written in its text. -/
theorem exists_drawnFrom_of_parse (h : parse text options = .ok range) {set : ComparatorSet}
    (hset : set ∈ range.sets) {c : Comparator} (hc : c ∈ set.comparators) :
    ∃ alternatives : Alternatives Operand, WritesAlternatives (trim text.toList) alternatives ∧
      ∃ o ∈ alternatives.operands, (∃ t, WritesOperand t o) ∧
        c.DrawnFrom options.includePrerelease (o.resolve options) := by
  obtain ⟨alternatives, htext, rfl⟩ := parse_eq_ok_iff.1 h
  rw [ofAlternatives_sets] at hset
  obtain ⟨segment, hsegment, rfl⟩ := List.mem_map.1 hset
  obtain ⟨x, hx, hc⟩ := List.mem_flatMap.1 hc
  obtain ⟨o, ho, hdrawn⟩ := Term.exists_drawnFrom_of_mem_comparators hc
  have hoperand : o ∈ alternatives.operands :=
    List.mem_flatMap.2 ⟨x, List.mem_flatten.2 ⟨segment, hsegment, hx⟩, ho⟩
  exact ⟨alternatives, htext, o, hoperand, htext.exists_of_mem_operands hsegment hx ho, hdrawn⟩

theorem plain_of_parse (h : parse text options = .ok range) :
    ∀ set ∈ range.sets, ∀ c ∈ set.comparators, c.version.Plain := by
  intro set hset c hc
  obtain ⟨-, -, o, -, ⟨t, ho⟩, hdrawn⟩ := exists_drawnFrom_of_parse h hset hc
  exact hdrawn.plain ho

/-- A text has at least one alternative. -/
theorem sets_ne_nil_of_parse (h : parse text options = .ok range) : range.sets ≠ [] := by
  obtain ⟨⟨segments⟩, htext, rfl⟩ := parse_eq_ok_iff.1 h
  have hsegments : segments ≠ [] := Separated.ne_nil htext
  simpa [ofAlternatives_sets] using hsegments

theorem writable_of_parse (h : parse text options = .ok range)
    (hsafe : ∀ set ∈ range.sets, ∀ c ∈ set.comparators, c.version.core.Safe) : range.Writable where
  ne_nil := sets_ne_nil_of_parse h
  versions set hset c hc := ⟨(plain_of_parse h set hset c hc).worded, hsafe set hset c hc⟩

/-- What is read from the text of a range demands what the range does. -/
theorem sameDemands_reread (range : Range) :
    (range.reread range.options).sameDemands range = true := by
  refine sameDemands_iff.2 ⟨?_, rfl⟩
  simp only [reread, List.map_map]
  refine List.map_congr_left fun set _ => ?_
  simp only [Function.comp_apply, ComparatorSet.demands, List.map_map]
  rfl

end Range

theorem Comparator.render_reread {c : Comparator} (h : c.version.build = []) (options : Options) :
    (c.reread options).render = c.render := by
  simp only [render, reread, Version.render, h]

/-- What keeps the texts of the comparators keeps the text of the set. -/
theorem ComparatorSet.render_map {f : Comparator → Comparator} {set : ComparatorSet}
    (h : ∀ c ∈ set.comparators, (f c).render = c.render) :
    ComparatorSet.render ⟨set.comparators.map f⟩ = set.render := by
  obtain ⟨cs⟩ := set
  cases cs with
  | nil => rfl
  | cons c cs =>
    rw [List.map_cons, render_cons, render_cons, ← List.map_cons, List.map_map]
    exact congrArg (" ".intercalate ·) (List.map_congr_left h)

namespace Range

/-- What keeps the texts of the comparators keeps the text of the range. -/
theorem render_map {f : Comparator → Comparator} {range : Range}
    (h : ∀ set ∈ range.sets, ∀ c ∈ set.comparators, (f c).render = c.render) (options : Options) :
    render { sets := range.sets.map fun set => ⟨set.comparators.map f⟩, options } =
      range.render := by
  obtain ⟨sets, o⟩ := range
  cases sets with
  | nil => rfl
  | cons set sets =>
    have hsets : (((set :: sets).map fun set => ComparatorSet.mk
        (set.comparators.map f)).map ComparatorSet.render) =
          (set :: sets).map ComparatorSet.render := by
      rw [List.map_map]
      exact List.map_congr_left fun d hd => ComparatorSet.render_map (h d hd)
    exact congrArg ("||".intercalate ·) hsets

/-- The text of a range whose versions have no build metadata is what its reading is written as. -/
theorem render_reread {range : Range}
    (h : ∀ set ∈ range.sets, ∀ c ∈ set.comparators, c.version.build = []) (options : Options) :
    (range.reread options).render = range.render :=
  render_map (fun set hset c hc => Comparator.render_reread (h set hset c hc) options) options

/-- **A range survives being written and read.**  Let a range be read from a text, and let no number
of its comparators be beyond the limit. Then its text is read under its options, as a range with
the same sets and the same comparators in the same order, and that range has the same text. -/
theorem parse_render_sameDemands {text : String} {options : Options} {range : Range}
    (h : parse text options = .ok range)
    (hsafe : ∀ set ∈ range.sets, ∀ c ∈ set.comparators, c.version.core.Safe) :
    ∃ again, parse range.render range.options = .ok again ∧ again.sameDemands range = true ∧
      again.render = range.render := by
  refine ⟨range.reread range.options, parse_render (writable_of_parse h hsafe) range.options,
    range.sameDemands_reread, render_reread ?_ range.options⟩
  exact fun set hset c hc => (plain_of_parse h set hset c hc).build

/-- A hyphenated pair with a loose pre-release made of dashes, and an empty set. -/
theorem parse_render_sameDemands_dashes : ∃ range : Range,
    parse " v1.0.0a---- - 2 || >=x" {} = .ok range ∧
    range.render = ">=1.0.0-a---- <3.0.0-0||*" ∧
    ∃ again, parse range.render range.options = .ok again ∧ again.sameDemands range = true ∧
      again.render = range.render := by
  let dashes : Version :=
    { core := ⟨1, 0, 0⟩, preRelease := [.alphanumeric "a----"], raw := some "v1.0.0a----",
      options := { loose := true } }
  let range : Range := { sets := [⟨[.atLeast dashes, .ceiling 3 0 0]⟩, ⟨[]⟩] }
  have hrange : parse " v1.0.0a---- - 2 || >=x" {} = .ok range := by decide +kernel
  have hsafe : ∀ set ∈ range.sets, ∀ c ∈ set.comparators, c.version.core.Safe := by decide
  exact ⟨range, hrange, by decide +kernel, parse_render_sameDemands hrange hsafe⟩

end Range
end SemanticVersioning
