import Mathlib.Data.List.ReduceOption
import SemanticVersioning.Numeral
import SemanticVersioning.Proofs.Range.Meeting
import SemanticVersioning.Proofs.Range.Minimum

/-!
# Ranges in machine words

The numbers of this library are unbounded. Where they are words of 64 bits, each addition may fail,
and there are many: the expansion of terms adds one to the numbers of operands, and the search for
the lowest version adds one to patches. This module does both again with additions that are checked
(`next?`), in the order and under the conditions in which they are made, and shows that none fails
for a range that was read (`Range.fits_words`).

## Why nothing fails

A number that is written is at most `maxSafeInteger`, so an expansion stays far below the limit of a
word, and what it makes up is at most one beyond `maxSafeInteger`. The search adds one to the patch of
an operand for a comparator that demands more than it. It would be the second addition if such an
operand could be made up, but an expansion makes up no comparator of this kind
(`Comparator.DrawnFrom.eq_full_of_greater`): the operand was written, and the search is the first to
add to it.
-/

namespace SemanticVersioning

open Text

/-! ## Checked additions -/

/-- The number after a number, if a word holds it. -/
def next? (n : Nat) : Option Nat :=
  if n < Numeral.maxWord then some (n + 1) else none

theorem next?_eq_some {n : Nat} (h : n < Numeral.maxWord) : next? n = some (n + 1) :=
  if_pos h

/-- A list of checked computations is checked element by element. -/
theorem mapM_eq_some_map {α β : Type} {f : α → Option β} {g : α → β} {as : List α}
    (h : ∀ a ∈ as, f a = some (g a)) : as.mapM f = some (as.map g) := by
  induction as with
  | nil => rfl
  | cons a as ih =>
    rw [List.forall_mem_cons] at h
    rw [List.mapM_cons, h.1, ih h.2]
    rfl

/-! ## Expansion -/

namespace Extent

open Comparator

/-- `Extent.agreeing` with checked additions. -/
def agreeingInWords (includePrerelease : Bool) : Extent → Option (List Comparator)
  | any => some []
  | major M => (next? M).map fun after => [floor includePrerelease M 0 0, ceiling after 0 0]
  | minor M m => (next? m).map fun after => [floor includePrerelease M m 0, ceiling M after 0]
  | full v => some [⟨.exact, v⟩]

/-- `Extent.compared` with checked additions. -/
def comparedInWords (includePrerelease : Bool) (operator : Operator) :
    Extent → Option (List Comparator)
  | full v => some [⟨operator, v⟩]
  | any =>
      match operator with
      | .greater | .less => some [.below .lowest]
      | .exact | .greaterOrEqual | .lessOrEqual => some []
  | major M =>
      match operator with
      | .exact => agreeingInWords includePrerelease (major M)
      | .greater => (next? M).map fun after => [floor includePrerelease after 0 0]
      | .greaterOrEqual => some [floor includePrerelease M 0 0]
      | .less => some [ceiling M 0 0]
      | .lessOrEqual => (next? M).map fun after => [ceiling after 0 0]
  | minor M m =>
      match operator with
      | .exact => agreeingInWords includePrerelease (minor M m)
      | .greater => (next? m).map fun after => [floor includePrerelease M after 0]
      | .greaterOrEqual => some [floor includePrerelease M m 0]
      | .less => some [ceiling M m 0]
      | .lessOrEqual => (next? m).map fun after => [ceiling M after 0]

/-- `Extent.tilde` with checked additions. -/
def tildeInWords (includePrerelease : Bool) : Extent → Option (List Comparator)
  | any => some []
  | major M => (next? M).map fun after => [floor includePrerelease M 0 0, ceiling after 0 0]
  | minor M m => (next? m).map fun after => [floor includePrerelease M m 0, ceiling M after 0]
  | full v => (next? v.core.minor).map fun after => [.atLeast v, ceiling v.core.major after 0]

/-- `Extent.caret` with checked additions. -/
def caretInWords (includePrerelease : Bool) : Extent → Option (List Comparator)
  | any => some []
  | major M => (next? M).map fun after => [floor includePrerelease M 0 0, ceiling after 0 0]
  | minor 0 m => (next? m).map fun after => [floor includePrerelease 0 m 0, ceiling 0 after 0]
  | minor M m => (next? M).map fun after => [floor includePrerelease M m 0, ceiling after 0 0]
  | full v =>
      match v.core with
      | ⟨0, 0, p⟩ => (next? p).map fun after => [.atLeast v, ceiling 0 0 after]
      | ⟨0, m, _⟩ => (next? m).map fun after => [.atLeast v, ceiling 0 after 0]
      | ⟨M, _, _⟩ => (next? M).map fun after => [.atLeast v, ceiling after 0 0]

/-- `Extent.upperEnd` with checked additions. At the lower end nothing is added. -/
def upperEndInWords : Extent → Option (List Comparator)
  | any => some []
  | major M => (next? M).map fun after => [ceiling after 0 0]
  | minor M m => (next? m).map fun after => [ceiling M after 0]
  | full v => some [⟨.lessOrEqual, v⟩]

/-- Whether a word holds the number after each number of an operand. -/
def Fits (e : Extent) : Prop :=
  ∀ n ∈ e.numbers, n < Numeral.maxWord

variable {e : Extent}

theorem agreeingInWords_eq (h : e.Fits) (includePrerelease : Bool) :
    e.agreeingInWords includePrerelease = some (e.agreeing includePrerelease) := by
  cases e with
  | any => rfl
  | major M => rw [agreeingInWords, next?_eq_some (h M (by simp [numbers]))]; rfl
  | minor M m => rw [agreeingInWords, next?_eq_some (h m (by simp [numbers]))]; rfl
  | full v => rfl

theorem comparedInWords_eq (h : e.Fits) (includePrerelease : Bool) (op : Operator) :
    e.comparedInWords includePrerelease op = some (e.compared includePrerelease op) := by
  cases e with
  | any => cases op <;> rfl
  | major M =>
    have hnext := next?_eq_some (h M (by simp [numbers]))
    cases op with
    | exact => exact agreeingInWords_eq h includePrerelease
    | _ => simp [comparedInWords, compared, hnext]
  | minor M m =>
    have hnext := next?_eq_some (h m (by simp [numbers]))
    cases op with
    | exact => exact agreeingInWords_eq h includePrerelease
    | _ => simp [comparedInWords, compared, hnext]
  | full v => rfl

theorem tildeInWords_eq (h : e.Fits) (includePrerelease : Bool) :
    e.tildeInWords includePrerelease = some (e.tilde includePrerelease) := by
  cases e with
  | any => rfl
  | major M => rw [tildeInWords, next?_eq_some (h M (by simp [numbers]))]; rfl
  | minor M m => rw [tildeInWords, next?_eq_some (h m (by simp [numbers]))]; rfl
  | full v => rw [tildeInWords, next?_eq_some (h v.core.minor (by simp [numbers]))]; rfl

theorem caretInWords_eq (h : e.Fits) (includePrerelease : Bool) :
    e.caretInWords includePrerelease = some (e.caret includePrerelease) := by
  cases e with
  | any => rfl
  | major M => rw [caretInWords, next?_eq_some (h M (by simp [numbers]))]; rfl
  | minor M m =>
    have hmajor := next?_eq_some (h M (by simp [numbers]))
    have hminor := next?_eq_some (h m (by simp [numbers]))
    cases M <;> simp [caretInWords, caret, hmajor, hminor]
  | full v =>
    obtain ⟨⟨⟨M, m, p⟩, is⟩, parts, raw, options⟩ := v
    have hmajor := next?_eq_some (h M (by simp [numbers]))
    have hminor := next?_eq_some (h m (by simp [numbers]))
    have hpatch := next?_eq_some (h p (by simp [numbers]))
    cases M <;> cases m <;> simp [caretInWords, caret, hmajor, hminor, hpatch]

/-- The checks are real: a word holds no number after `18446744073709551615`. -/
example : caretInWords false (.major Numeral.maxWord) = none := by
  decide

theorem upperEndInWords_eq (h : e.Fits) : e.upperEndInWords = some e.upperEnd := by
  cases e with
  | any => rfl
  | major M => rw [upperEndInWords, next?_eq_some (h M (by simp [numbers]))]; rfl
  | minor M m => rw [upperEndInWords, next?_eq_some (h m (by simp [numbers]))]; rfl
  | full v => rfl

end Extent

/-- `Term.expand` with checked additions. -/
def Term.expandInWords (includePrerelease : Bool) : Term Extent → Option (List Comparator)
  | compare operator operand => operand.comparedInWords includePrerelease operator
  | tilde operand => operand.tildeInWords includePrerelease
  | caret operand => operand.caretInWords includePrerelease
  | hyphen lower upper =>
      upper.upperEndInWords.map fun ends => lower.lowerEnd includePrerelease ++ ends

/-- `Range.ofAlternatives` with checked additions. -/
def Range.ofAlternativesInWords (options : Options) (alternatives : Alternatives Extent) :
    Option Range := do
  let sets ← alternatives.segments.mapM fun segment => do
    let comparators ← segment.mapM (Term.expandInWords options.includePrerelease)
    return ⟨comparators.flatten⟩
  return { sets, options }

theorem Term.expandInWords_eq {x : Term Extent} (h : ∀ e ∈ x.operands, e.Fits)
    (includePrerelease : Bool) :
    x.expandInWords includePrerelease = some (x.expand includePrerelease) := by
  cases x with
  | compare op e => exact Extent.comparedInWords_eq (h e (by simp [operands])) includePrerelease op
  | tilde e => exact Extent.tildeInWords_eq (h e (by simp [operands])) includePrerelease
  | caret e => exact Extent.caretInWords_eq (h e (by simp [operands])) includePrerelease
  | hyphen lower upper =>
    rw [expandInWords, Extent.upperEndInWords_eq (h upper (by simp [operands]))]
    rfl

/-- **An expansion fits in words if the numbers of its operands do.** -/
theorem Range.ofAlternativesInWords_eq {alternatives : Alternatives Extent}
    (h : ∀ segment ∈ alternatives.segments, ∀ x ∈ segment, ∀ e ∈ Term.operands x, e.Fits)
    (options : Options) :
    ofAlternativesInWords options alternatives = some (ofAlternatives options alternatives) := by
  have hsegment : ∀ segment ∈ alternatives.segments,
      segment.mapM (Term.expandInWords options.includePrerelease) =
        some (segment.map (Term.expand options.includePrerelease)) :=
    fun segment hsegment => mapM_eq_some_map fun x hx =>
      Term.expandInWords_eq (h segment hsegment x hx) options.includePrerelease
  rw [ofAlternativesInWords, mapM_eq_some_map (g := fun segment =>
    ⟨(segment.map (Term.expand options.includePrerelease)).flatten⟩)]
  · rfl
  · intro segment hmem
    rw [hsegment segment hmem]
    rfl

/-! ## The search for the lowest version -/

/-- `Version.successor` with a checked addition. -/
def Version.successorInWords (v : Version) : Option Version :=
  if v.isPrerelease then
    some { v.withoutBuild with preRelease := v.preRelease ++ [.numeric 0] }
  else
    (next? v.core.patch).map fun patch => { v.withoutBuild with core := { v.core with patch } }

/-- `Comparator.start?` with checked additions. -/
def Comparator.startInWords (c : Comparator) : Option (Option Version) :=
  match c.operator with
  | .greater => c.version.successorInWords.map some
  | .greaterOrEqual | .exact => some (some c.version)
  | .less | .lessOrEqual => some none

/-- `ComparatorSet.start?` with checked additions. -/
def ComparatorSet.startInWords (set : ComparatorSet) : Option (Option Version) := do
  let starts ← set.comparators.mapM Comparator.startInWords
  return best? (fun v kept => (compare v kept).isGT) starts.reduceOption

namespace Range

/-- `Range.start?` with checked additions. -/
def startInWords (range : Range) : Option (Option Version) := do
  let starts ← range.sets.mapM ComparatorSet.startInWords
  return best? (fun v kept => (compare v kept).isLT) starts.reduceOption

/-- `Range.minimum?` with checked additions. -/
def minimumInWords (range : Range) : Option (Option Version) :=
  if range.admits (.release 0 0 0) then
    some (some (.release 0 0 0))
  else if range.admits .lowest then
    some (some .lowest)
  else
    range.startInWords.map (·.filter range.admits)

end Range

theorem Version.successorInWords_eq {v : Version} (h : v.core.patch < Numeral.maxWord) :
    v.successorInWords = some v.successor := by
  rw [successorInWords, next?_eq_some h, successor]
  split <;> rfl

theorem Comparator.startInWords_eq {c : Comparator}
    (h : c.operator = .greater → c.version.core.patch < Numeral.maxWord) :
    c.startInWords = some c.start? := by
  obtain ⟨op, v⟩ := c
  cases op with
  | greater =>
    have hsuccessor := Version.successorInWords_eq (h rfl)
    simp [startInWords, start?, hsuccessor]
  | greaterOrEqual => rfl
  | exact => rfl
  | less => rfl
  | lessOrEqual => rfl

theorem ComparatorSet.startInWords_eq {set : ComparatorSet}
    (h : ∀ c ∈ set.comparators, c.operator = .greater → c.version.core.patch < Numeral.maxWord) :
    set.startInWords = some set.start? := by
  rw [startInWords, mapM_eq_some_map fun c hc => Comparator.startInWords_eq (h c hc), start?]
  simp [List.reduceOption, List.filterMap_map]

/-- **The search fits in words if the patches after which it starts do.** -/
theorem Range.minimumInWords_eq {range : Range} (h : ∀ set ∈ range.sets, ∀ c ∈ set.comparators,
    c.operator = .greater → c.version.core.patch < Numeral.maxWord) :
    range.minimumInWords = some range.minimum? := by
  have hstart : range.startInWords = some range.start? := by
    rw [startInWords, mapM_eq_some_map fun set hset => ComparatorSet.startInWords_eq (h set hset),
      start?]
    simp [List.reduceOption, List.filterMap_map]
  rw [minimumInWords, hstart, minimum?]
  cases range.admits (.release 0 0 0) <;> cases range.admits .lowest <;> rfl

/-! ## The numbers of a range that was read -/

/-- Whether no number of a core is above a limit. -/
structure Core.AtMost (core : Core) (limit : Nat) : Prop where
  major : core.major ≤ limit
  minor : core.minor ≤ limit
  patch : core.patch ≤ limit

theorem Rank.NumbersLE.core_atMost {r : Rank} {limit : Nat} (h : r.NumbersLE limit) :
    r.core.AtMost limit :=
  ⟨h.major, h.minor, h.patch⟩

theorem maxSafeInteger_lt_maxWord : maxSafeInteger < Numeral.maxWord := by
  decide

/-- A word holds the number after each number that is written. -/
theorem WritesOperand.fits_resolve {t : List Char} {o : Operand} (h : WritesOperand t o)
    (options : Options) : (o.resolve options).Fits := by
  intro n hn
  rw [o.numbers_resolve] at hn
  exact lt_of_le_of_lt (h.numbers_le n hn) maxSafeInteger_lt_maxWord

/-- **No comparator that demands more than its operand is made up.** -/
theorem Comparator.DrawnFrom.eq_full_of_greater {includePrerelease : Bool} {e : Extent}
    {c : Comparator} (h : c.DrawnFrom includePrerelease e) (hop : c.operator = .greater) :
    e = .full c.version := by
  cases h with
  | floor => cases includePrerelease <;> exact nomatch hop
  | ceiling => exact nomatch hop
  | written he => exact he

/-- The successor of a version has the core of the version, or that of the next patch. -/
theorem Version.core_successor (v : Version) :
    v.successor.core = v.core ∨ v.successor.core = { v.core with patch := v.core.patch + 1 } := by
  cases hv : v.isPrerelease with
  | true => exact Or.inl (core_successor_of_isPrerelease hv)
  | false => exact Or.inr (congrArg Rank.core (toRank_successor_of_release hv))

namespace Range

variable {text : String} {options : Options} {range : Range} {set : ComparatorSet}
  {c : Comparator} {m : Version}

/-- A comparator that demands more than its operand is over a version that was written, so that its
patch is admitted. -/
theorem exists_written_of_greater (h : parse text options = .ok range) (hset : set ∈ range.sets)
    (hc : c ∈ set.comparators) (hop : c.operator = .greater) :
    ∃ alternatives : Alternatives Operand, WritesAlternatives (trim text.toList) alternatives ∧
      ∃ o ∈ alternatives.operands, o.resolve options = .full c.version ∧
        c.version.core.patch ≤ maxSafeInteger := by
  obtain ⟨alternatives, htext, o, ho, ⟨t, hwrites⟩, hdrawn⟩ := exists_drawnFrom_of_parse h hset hc
  have hfull := hdrawn.eq_full_of_greater hop
  refine ⟨alternatives, htext, o, ho, hfull, hwrites.numbers_le _ ?_⟩
  rw [← o.numbers_resolve options, hfull]
  simp [Extent.numbers]

/-- The numbers of the lowest version are at most one beyond the limit. A made-up operand is so and is
left as it is, and an operand that is added to was written. -/
theorem core_minimum?_atMost (h : parse text options = .ok range) (hm : range.minimum? = some m) :
    m.core.AtMost (maxSafeInteger + 1) := by
  rcases exists_start_of_minimum?_eq_some hm with rfl | rfl | ⟨set, hset, c, hc, hstart⟩
  · exact ⟨Nat.zero_le _, Nat.zero_le _, Nat.zero_le _⟩
  · exact ⟨Nat.zero_le _, Nat.zero_le _, Nat.zero_le _⟩
  have hcore := (numbersLE_of_parse h hset hc).core_atMost
  rcases Comparator.start?_eq_some_iff.1 hstart with ⟨hop, rfl⟩ | ⟨-, rfl⟩
  · obtain ⟨-, -, -, -, -, hpatch⟩ := exists_written_of_greater h hset hc hop
    rcases c.version.core_successor with hsuccessor | hsuccessor <;> rw [hsuccessor]
    · exact hcore
    · exact ⟨hcore.major, hcore.minor, Nat.succ_le_succ hpatch⟩
  · exact hcore

/-- **A range that was read fits in words.**  With numbers of 64 bits no addition fails, neither in
the expansion of the text nor in the search for the lowest version, and both have the results that
they have with unbounded numbers. More precisely, the numbers of the comparators are at most one
beyond `maxSafeInteger`, and those of their identifiers are not beyond it. A comparator that demands
more than its operand is over a complete operand of the text, with a patch that is not beyond it
either. The numbers of the lowest version are again at most one beyond. -/
theorem fits_words (h : parse text options = .ok range) :
    ∃ alternatives : Alternatives Operand, Alternatives.parse text = .ok alternatives ∧
      ofAlternativesInWords options (alternatives.map (Operand.resolve options)) = some range ∧
      range.minimumInWords = some range.minimum? ∧
      (∀ set ∈ range.sets, ∀ c ∈ set.comparators,
        c.version.core.AtMost (maxSafeInteger + 1) ∧
        (∀ n, .numeric n ∈ c.version.preRelease → n ≤ maxSafeInteger) ∧
        (c.operator = .greater → ∃ o ∈ alternatives.operands,
          o.resolve options = .full c.version ∧ c.version.core.patch ≤ maxSafeInteger)) ∧
      ∀ m, range.minimum? = some m → m.core.AtMost (maxSafeInteger + 1) := by
  obtain ⟨alternatives, htext, hrange⟩ := parse_eq_ok_iff.1 h
  have hwritten : ∀ set ∈ range.sets, ∀ c ∈ set.comparators, c.operator = .greater →
      ∃ o ∈ alternatives.operands, o.resolve options = .full c.version ∧
        c.version.core.patch ≤ maxSafeInteger := by
    intro set hset c hc hop
    obtain ⟨alternatives', htext', hwritten⟩ := exists_written_of_greater h hset hc hop
    rwa [htext.unique htext' (avoids_isLayout_trim text.toList)]
  refine ⟨alternatives, Alternatives.parse_eq_ok_iff.2 htext, ?_, ?_, fun set hset c hc => ?_,
    fun m => core_minimum?_atMost h⟩
  · rw [hrange]
    refine ofAlternativesInWords_eq (fun resolved hresolved y hy e he => ?_) options
    -- an operand of the resolved alternatives is a resolved one of those that were written
    obtain ⟨segment, hsegment, hmap⟩ := List.mem_map.1 hresolved
    rw [← hmap] at hy
    obtain ⟨x, hx, hmap⟩ := List.mem_map.1 hy
    rw [← hmap, Term.operands_map] at he
    obtain ⟨o, ho, rfl⟩ := List.mem_map.1 he
    obtain ⟨t, ht⟩ := htext.exists_of_mem_operands hsegment hx ho
    exact ht.fits_resolve options
  · refine minimumInWords_eq fun set hset c hc hop => ?_
    obtain ⟨-, -, -, hpatch⟩ := hwritten set hset c hc hop
    exact lt_of_le_of_lt hpatch maxSafeInteger_lt_maxWord
  · exact ⟨(numbersLE_of_parse h hset hc).core_atMost,
      fun n hn => (plain_of_parse h set hset c hc).identifiers _ hn, hwritten set hset c hc⟩

/-- Both bounds are reached: the first by the ceiling of a partial operand, the second by the patch
after a complete one. -/
theorem fits_words_limit : ∃ (range : Range) (m : Version),
    parse ">1.2.9007199254740991 <=9007199254740991" {} = .ok range ∧
      range.minimumInWords = some (some m) ∧ m.core = ⟨1, 2, maxSafeInteger + 1⟩ ∧
        m.core.AtMost (maxSafeInteger + 1) ∧
          ∃ set ∈ range.sets, .ceiling (maxSafeInteger + 1) 0 0 ∈ set.comparators := by
  let w : Version := { core := ⟨1, 2, maxSafeInteger⟩, raw := some "1.2.9007199254740991",
                       options := { loose := true } }
  let set : ComparatorSet := ⟨[⟨.greater, w⟩, .ceiling (maxSafeInteger + 1) 0 0]⟩
  let range : Range := { sets := [set] }
  have hrange : parse ">1.2.9007199254740991 <=9007199254740991" {} = .ok range := by
    decide +kernel
  have hm : range.minimum? = some w.successor := by decide +kernel
  obtain ⟨-, -, -, hwords, -, hlimit⟩ := fits_words hrange
  rw [hm] at hwords
  exact ⟨range, w.successor, hrange, hwords, rfl, hlimit _ hm, set, List.mem_singleton_self _,
    by simp [set]⟩

end Range
end SemanticVersioning
