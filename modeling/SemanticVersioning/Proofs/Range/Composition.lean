import Mathlib.Control.Monad.Basic
import SemanticVersioning.Proofs.Range.Exactness
import SemanticVersioning.Proofs.Text.Blank

/-!
# Range texts put together

Two range texts with bars between them are a range text, which offers the alternatives of the first
and then those of the second. Two texts of one alternative each, with a space between them, are a
text of one alternative, which asks for the comparators of both.

## Why what is appended does not change what was read

A range text is read as far as it goes, so a text that is appended could be taken for a part of what
stands before it: a hyphen for that of a pair, a number for the operand of a sign, blanks for those
after a `v`. None of this can happen, and the argument does not look at the reader. A derivation of
each text is at hand, and with a separator between them they are a derivation of the whole
(`Separated.append`). As the notation is read exactly, the whole is read by that derivation.

What needs care are the blanks where the texts meet. They are outer blanks of the two texts and
inner ones of the whole, and inner blanks have to be layout. If one of the texts has a body of no
characters, its blanks are outer ones of the whole again (`Text.trim_append_blanks_append`).
-/

namespace SemanticVersioning

open Reader Text

/-! ## Derivations put together -/

/-- Two lists with a separator between them are a list. -/
theorem Separated.append {α : Type} {S : List Char → Prop} {G : List Char → α → Prop}
    {t u r : List Char} {as bs : List α} (ht : Separated S G t as) (hu : S u)
    (hr : Separated S G r bs) : Separated S G (t ++ (u ++ r)) (as ++ bs) := by
  induction ht with
  | single ht => exact .cons ht hu hr
  | @cons t v q a as ht hv _ ih =>
    have hassoc : t ++ (v ++ q) ++ (u ++ r) = t ++ (v ++ (q ++ (u ++ r))) := by
      simp only [List.append_assoc]
    rw [hassoc]
    exact .cons ht hv ih

/-- Only the empty segment is written by no characters. -/
theorem WritesSegment.eq_nil {ts : List (Term Operand)} (h : WritesSegment [] ts) : ts = [] := by
  generalize ht : ([] : List Char) = t at h
  cases h with
  | absent => rfl
  | present h =>
    obtain ⟨c, r, hdrop, -⟩ := terms_exists_tight h
    have hcons := hdrop []
    simp [← ht] at hcons

theorem WritesSegment.append {t u r : List Char} {ts us : List (Term Operand)}
    (ht : WritesSegment t ts) (hu : IsLayoutRun u) (hr : WritesSegment r us) (htne : t ≠ [])
    (hrne : r ≠ []) : WritesSegment (t ++ (u ++ r)) (ts ++ us) := by
  cases ht with
  | absent => exact absurd rfl htne
  | present ht =>
    cases hr with
    | absent => exact absurd rfl hrne
    | present hr => exact .present (ht.append hu hr)

/-- A text without bars writes one segment. -/
theorem WritesAlternatives.exists_segment {t : List Char} {alternatives : Alternatives Operand}
    (h : WritesAlternatives t alternatives) (hbars : ¬ ['|', '|'] <:+: t) :
    ∃ ts, alternatives.segments = [ts] ∧ WritesSegment t ts := by
  obtain ⟨segments⟩ := alternatives
  cases h with
  | @single _ ts ht => exact ⟨ts, rfl, ht⟩
  | @cons t u r _ _ _ hu _ =>
    cases hu with
    | @intro v w _ _ =>
      refine absurd ⟨t ++ v, w ++ r, ?_⟩ hbars
      simp only [List.append_assoc, List.cons_append, List.nil_append]

/-! ## The blanks where two texts meet -/

theorem tight_bars : Tight ['|', '|'] :=
  .of_forall (by simp) (by simp; decide)

theorem isBlank_space : ∀ c ∈ [' '], isBlank c = true := by
  simp; decide

variable {s t : List Char}

/-- **Alternatives with bars between them.**  Of the blanks around the bars those of the first text
are missing if it has no body. -/
theorem WritesAlternatives.trim_append_bars {a b : Alternatives Operand}
    (ha : WritesAlternatives (trim s) a) (hb : WritesAlternatives (trim t) b)
    (hs : ∀ c ∈ trailingBlanks s, isLayout c = true)
    (ht : ∀ c ∈ leadingBlanks t, isLayout c = true) :
    WritesAlternatives (trim (s ++ (['|', '|'] ++ t))) ⟨a.segments ++ b.segments⟩ := by
  obtain ⟨w, hdrop, hw⟩ := exists_dropWhile_isBlank s
  have hbars : IsBars (w ++ '|' :: '|' :: leadingBlanks t) := .intro (fun c hc => hs c (hw c hc)) ht
  have hbody : trim (s ++ (['|', '|'] ++ t)) =
      trim s ++ (w ++ '|' :: '|' :: leadingBlanks t ++ trim t) := by
    rw [trim_append_of_tight tight_bars, hdrop, ← leadingBlanks_append_trim t]
    simp only [List.append_assoc, List.cons_append, List.nil_append]
  rw [hbody]
  exact Separated.append ha hbars hb

/-- **Terms with a space between them.** -/
theorem WritesSegment.trim_append_space {ts us : List (Term Operand)}
    (ha : WritesSegment (trim s) ts) (hb : WritesSegment (trim t) us)
    (hs : ∀ c ∈ trailingBlanks s, isLayout c = true)
    (ht : ∀ c ∈ leadingBlanks t, isLayout c = true) :
    WritesSegment (trim (s ++ ([' '] ++ t))) (ts ++ us) := by
  by_cases hsne : trim s = []
  · -- the space is an outer blank of the whole, as is the first text
    rw [hsne] at ha
    rw [trim_append_of_isBlank_left (isBlank_of_trim_eq_nil hsne),
      trim_append_of_isBlank_left isBlank_space, ha.eq_nil]
    exact hb
  by_cases htne : trim t = []
  · have hblank : ∀ c ∈ [' '] ++ t, isBlank c = true :=
      List.forall_mem_append.2 ⟨isBlank_space, isBlank_of_trim_eq_nil htne⟩
    rw [htne] at hb
    rw [trim_append_of_isBlank hblank, hb.eq_nil, List.append_nil]
    exact ha
  · have hrun : IsLayoutRun (trailingBlanks s ++ ([' '] ++ leadingBlanks t)) := by
      refine ⟨by simp, ?_⟩
      simp only [List.forall_mem_append]
      exact ⟨hs, by simp; decide, ht⟩
    rw [trim_append_blanks_append hsne htne]
    exact ha.append hrun hb hsne htne

/-! ## Ranges put together -/

namespace Range

theorem ofAlternatives_append (options : Options) (as bs : List (List (Term Operand))) :
    (ofAlternatives options (Alternatives.map (Operand.resolve options) ⟨as ++ bs⟩)).sets =
      (ofAlternatives options (Alternatives.map (Operand.resolve options) ⟨as⟩)).sets ++
        (ofAlternatives options (Alternatives.map (Operand.resolve options) ⟨bs⟩)).sets := by
  simp only [ofAlternatives, Alternatives.map, List.map_append]

/-- The comparators of a segment are those of its first terms and then those of the others. -/
theorem ofAlternatives_segment_append (options : Options) (ts us : List (Term Operand)) :
    (ofAlternatives options (Alternatives.map (Operand.resolve options) ⟨[ts ++ us]⟩)).sets =
      [⟨(ts.flatMap fun x => (x.map (Operand.resolve options)).expand options.includePrerelease) ++
        us.flatMap fun x => (x.map (Operand.resolve options)).expand options.includePrerelease⟩] := by
  rw [ofAlternatives_sets, List.map_singleton, List.flatMap_append]

/-- **Range texts compose.**  Let the blanks where two range texts meet be layout. The texts with
bars between them are the range with the sets of the first and then those of the second, which
admits what one of the two admits. If no bars stand in the texts, the texts with a space between
them are the range of one set, with the comparators of the first and then those of the second. -/
theorem parse_composition {a b : String} {options : Options} {ra rb : Range}
    (ha : parse a options = .ok ra) (hb : parse b options = .ok rb)
    (hend : ∀ c ∈ trailingBlanks a.toList, isLayout c = true)
    (hstart : ∀ c ∈ leadingBlanks b.toList, isLayout c = true) :
    (∃ range, parse (a ++ "||" ++ b) options = .ok range ∧
      range.sets = ra.sets ++ rb.sets ∧ range.options = options ∧
      ∀ v, range.admits v = (ra.admits v || rb.admits v)) ∧
    (¬ ['|', '|'] <:+: a.toList → ¬ ['|', '|'] <:+: b.toList →
      ∃ range s t, parse (a ++ " " ++ b) options = .ok range ∧
        ra.sets = [s] ∧ rb.sets = [t] ∧
        range.sets = [⟨s.comparators ++ t.comparators⟩] ∧ range.options = options) := by
  obtain ⟨⟨as⟩, has, rfl⟩ := parse_eq_ok_iff.1 ha
  obtain ⟨⟨bs⟩, hbs, rfl⟩ := parse_eq_ok_iff.1 hb
  constructor
  · have hjoined := has.trim_append_bars hbs hend hstart
    have htext : (a ++ "||" ++ b).toList = a.toList ++ (['|', '|'] ++ b.toList) := by
      simp [String.toList_append]
    rw [← htext] at hjoined
    have hsets := ofAlternatives_append options as bs
    refine ⟨_, parse_eq_ok_iff.2 ⟨_, hjoined, rfl⟩, hsets, rfl, fun v => ?_⟩
    rw [admits, hsets, List.any_append]
    rfl
  · intro habars hbbars
    obtain ⟨ts, rfl, hts⟩ := has.exists_segment fun h => habars (h.trans (trim_isInfix _))
    obtain ⟨us, rfl, hus⟩ := hbs.exists_segment fun h => hbbars (h.trans (trim_isInfix _))
    have hjoined : WritesAlternatives (trim (a.toList ++ ([' '] ++ b.toList))) ⟨[ts ++ us]⟩ :=
      .single (hts.trim_append_space hus hend hstart)
    have htext : (a ++ " " ++ b).toList = a.toList ++ ([' '] ++ b.toList) := by
      simp [String.toList_append]
    rw [← htext] at hjoined
    exact ⟨_, _, _, parse_eq_ok_iff.2 ⟨_, hjoined, rfl⟩, ofAlternatives_sets _ _,
      ofAlternatives_sets _ _, ofAlternatives_segment_append options ts us, rfl⟩

/-- A line that ends after a major number, and one that begins with a number and a hyphen. The
hyphen pairs the numbers around it and not the first one with what was there before. -/
theorem parse_composition_lines : ∃ ra rb : Range,
    parse "~> v 1\n" {} = .ok ra ∧ parse "\t2 - 3.x" {} = .ok rb ∧
    (∃ range, parse ("~> v 1\n" ++ "||" ++ "\t2 - 3.x") {} = .ok range ∧
      range.sets = ra.sets ++ rb.sets) ∧
    ∃ range, parse ("~> v 1\n" ++ " " ++ "\t2 - 3.x") {} = .ok range ∧
      range.sets = [⟨[.floor false 1 0 0, .ceiling 2 0 0, .floor false 2 0 0, .ceiling 4 0 0]⟩] := by
  let ra : Range := { sets := [⟨[.floor false 1 0 0, .ceiling 2 0 0]⟩] }
  let rb : Range := { sets := [⟨[.floor false 2 0 0, .ceiling 4 0 0]⟩] }
  have ha : parse "~> v 1\n" {} = .ok ra := by decide +kernel
  have hb : parse "\t2 - 3.x" {} = .ok rb := by decide +kernel
  have hbars : ∀ {s : List Char}, '|' ∉ s → ¬ ['|', '|'] <:+: s :=
    fun hs h => hs (h.subset List.mem_cons_self)
  obtain ⟨⟨range, hrange, hsets, -⟩, hspace⟩ := parse_composition ha hb
    (List.all_eq_true.1 (by decide +kernel)) (List.all_eq_true.1 (by decide +kernel))
  obtain ⟨single, s, t, hsingle, hs, ht, hone, -⟩ :=
    hspace (hbars (by decide +kernel)) (hbars (by decide +kernel))
  obtain rfl := List.singleton_inj.1 hs
  obtain rfl := List.singleton_inj.1 ht
  exact ⟨ra, rb, ha, hb, ⟨range, hrange, hsets⟩, single, hsingle, hone⟩

end Range
end SemanticVersioning
