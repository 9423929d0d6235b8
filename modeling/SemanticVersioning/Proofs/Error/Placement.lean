import Mathlib.Control.Monad.Basic
import SemanticVersioning.Proofs.Range.Exactness
import SemanticVersioning.Proofs.Range.Faults
import SemanticVersioning.Proofs.Version.Exactness

/-!
# Errors tell where they stand, and what stands there

The readers work on the body of a text, and count what they leave of it. An error speaks of the
whole text, in bytes, and quotes from it. This module proves that the one is turned into the other
without a slip, for each error of each text.

* `ErrorKind.TrueBetween`: what a cause says of the two parts of the text, before the error and
  after it. What a cause quotes stands there, it stands there as a whole run, and it is indeed too
  large a number or no operator.
* `ParseError.StandsBetween`: what an error says besides. The offset is that of a place between two
  characters, so the text can be cut there, and the line and column can be found by doing so.
* `ParseError.faithful`: all errors of versions and of ranges.

The blanks that were stripped from a text come back into play here, since a run in the body could go
on in them. It does not, because no blank is a digit or an operator character.
-/

namespace SemanticVersioning

open Reader Text

/-! ## Cuts at a number of bytes -/

/-- The cut at a number of bytes is at the last place between two characters within them. -/
theorem Text.utf8Length_le_takeBytes {n : Nat} {s t : List Char} (ht : t <+: s)
    (hn : utf8Length t ≤ n) : utf8Length t ≤ utf8Length (takeBytes n s) := by
  induction s generalizing n t with
  | nil =>
    obtain rfl := List.prefix_nil.1 ht
    exact Nat.le_refl _
  | cons c s ih =>
    cases t with
    | nil => exact Nat.zero_le _
    | cons d t =>
      obtain ⟨rfl, hprefix⟩ := List.cons_prefix_cons.1 ht
      rw [utf8Length_cons] at hn
      have hrest := ih hprefix (Nat.le_sub_of_add_le (by omega : utf8Length t + d.utf8Size ≤ n))
      rw [takeBytes, if_pos (by omega), utf8Length_cons, utf8Length_cons]
      omega

theorem Text.takeWhile_append_of_avoids {p : Char → Bool} (s : List Char) {t : List Char}
    (ht : Avoids p t) : (s ++ t).takeWhile p = s.takeWhile p := by
  have hsplit : s ++ t = s.takeWhile p ++ (s.dropWhile p ++ t) := by
    rw [← List.append_assoc, List.takeWhile_append_dropWhile]
  rw [hsplit]
  exact takeWhile_append_eq (List.all_eq_true.1 List.all_takeWhile)
    ((avoids_dropWhile p s).append ht)

/-! ## What an error says -/

/-- What a cause says of the place where its error stands, which is between two parts of a text. -/
def ErrorKind.TrueBetween (before after : List Char) : ErrorKind → Prop
  | numericOverflow digits =>
      digits ≠ "" ∧ digits.toList = after.takeWhile Char.isDigit ∧
        maxSafeInteger < Nat.ofDigitChars 10 digits.toList 0
  | unknownOperator token =>
      token ≠ "" ∧ token.toList = after.takeWhile isOperatorChar ∧
        Avoids isOperatorChar before.reverse ∧ ∀ op, ¬ WritesOperator token.toList op
  | tooLong =>
      maxLength < utf8Length (before ++ after) ∧ utf8Length before ≤ maxLength ∧
        ∀ t, t <+: before ++ after → utf8Length t ≤ maxLength → utf8Length t ≤ utf8Length before
  | incompleteInput => False
  | invalidVersion => True
  | invalidRange => True

/-- The error stands between two parts of its text, and what it says of them is true. -/
structure ParseError.StandsBetween (before after : List Char) (e : ParseError) : Prop where
  input_eq : e.input.toList = before ++ after
  offset_eq : e.offset = utf8Length before
  end_le : e.offset + e.spanLength ≤ e.input.utf8ByteSize
  spanLength_eq : e.spanLength = if e.kind = .tooLong then utf8Length after else 0
  location_eq : ∃ start line, before = start ++ line ∧ '\n' ∉ line ∧
    (start = [] ∨ ∃ lines, start = lines ++ ['\n']) ∧ e.location? = some e.location ∧
      e.location = (before.count '\n', e.offset - utf8Length start)
  cause : e.kind.TrueBetween before after

/-- The error speaks of the text that was given, and tells the truth about it. -/
structure ParseError.FaithfulTo (text : String) (e : ParseError) : Prop where
  input_eq : e.input = text
  isValid : String.Pos.Raw.IsValid text ⟨e.offset⟩
  standsBetween : ∃ before after, e.StandsBetween before after

/-! ## What the readers found -/

theorem NumberFault.trueBetween {after trailing : List Char} {kind : ErrorKind}
    (h : NumberFault after kind) (htrailing : Avoids Char.isDigit trailing) (before : List Char) :
    kind.TrueBetween before (after ++ trailing) := by
  cases h with
  | leadingZero => trivial
  | tooLarge hlarge =>
    refine ⟨fun hempty => ?_, ?_, ?_⟩
    · have hnil := congrArg String.toList hempty
      rw [String.toList_ofList] at hnil
      rw [hnil] at hlarge
      exact absurd hlarge (by decide)
    · rw [String.toList_ofList, takeWhile_append_of_avoids after htrailing]
    · rwa [String.toList_ofList]

theorem NumberFault.ne_tooLong {after : List Char} {kind : ErrorKind} (h : NumberFault after kind) :
    kind ≠ .tooLong := by
  cases h <;> simp

theorem RangeFault.ne_tooLong {before after : List Char} {kind : ErrorKind}
    (h : RangeFault before after kind) : kind ≠ .tooLong := by
  cases h with
  | number h => exact h.ne_tooLong
  | operator _ h =>
    cases h
    simp

theorem OperatorFault.trueBetween {before after trailing : List Char} {kind : ErrorKind}
    (h : OperatorFault after kind) (htrailing : Avoids isOperatorChar trailing)
    (hbefore : Avoids isOperatorChar before.reverse) :
    kind.TrueBetween before (after ++ trailing) := by
  cases h with
  | unknown hne hunknown =>
    refine ⟨fun hempty => hne ?_, ?_, hbefore, ?_⟩
    · have hnil := congrArg String.toList hempty
      rwa [String.toList_ofList] at hnil
    · rw [String.toList_ofList, takeWhile_append_of_avoids after htrailing]
    · rwa [String.toList_ofList]

theorem Text.avoids_of_isBlank {p : Char → Bool} (hp : Apart p isBlank) {s : List Char}
    (hs : ∀ c ∈ s, isBlank c = true) : Avoids p s :=
  fun c hc => hp.symm c (hs c (List.mem_of_mem_head? hc))

theorem isDigit_apart_isBlank : Apart Char.isDigit isBlank :=
  isQualifierChar_apart_isBlank.mono (fun _ => isQualifierChar_of_isDigit) fun _ hc => hc

theorem RangeFault.trueBetween {skipped before after trailing : List Char} {kind : ErrorKind}
    (h : RangeFault before after kind) (hskipped : ∀ c ∈ skipped, isBlank c = true)
    (htrailing : ∀ c ∈ trailing, isBlank c = true) :
    kind.TrueBetween (skipped ++ before) (after ++ trailing) := by
  have hblank : Avoids isOperatorChar skipped.reverse :=
    avoids_reverse fun c hc => isOperatorChar_apart_isBlank.symm c (hskipped c hc)
  cases h.shift hblank with
  | number h => exact h.trueBetween (avoids_of_isBlank isDigit_apart_isBlank htrailing) _
  | operator hbefore h =>
    exact h.trueBetween (avoids_of_isBlank isOperatorChar_apart_isBlank htrailing) hbefore

namespace ParseError

/-- The place of an error between two parts of a text is found by cutting the text there. -/
theorem exists_location {e : ParseError} {before after : List Char}
    (hinput : e.input.toList = before ++ after) (hoffset : e.offset = utf8Length before) :
    ∃ start line, before = start ++ line ∧ '\n' ∉ line ∧
      (start = [] ∨ ∃ lines, start = lines ++ ['\n']) ∧ e.location? = some e.location ∧
        e.location = (before.count '\n', e.offset - utf8Length start) := by
  obtain ⟨start, line, hsplit, hline, hstart, hcolumn⟩ := exists_line before
  refine ⟨start, line, hsplit, hline, hstart, ?_, ?_⟩
  · rw [location?, ParseError.location, hinput, hoffset, locate?_append]
  · have hcount : columnOf before = utf8Length before - utf8Length start := by
      rw [hcolumn, hsplit, utf8Length_append, Nat.add_sub_cancel_left]
    rw [ParseError.location, hinput, hoffset, Text.location, takeBytes_append, hcount]
    rfl

/-- An error at which a reader stopped stands where it stopped. -/
theorem standsBetween_ofStop {text : String} {skipped before trailing : List Char} {stop : Stop}
    {kind : ErrorKind} (htext : text.toList = skipped ++ (before ++ stop.leftover) ++ trailing)
    (hkind : kind ≠ .tooLong)
    (hcause : kind.TrueBetween (skipped ++ before) (stop.leftover ++ trailing)) :
    (ofStop text skipped (before ++ stop.leftover) stop kind).StandsBetween (skipped ++ before)
      (stop.leftover ++ trailing) := by
  have hinput : text.toList = skipped ++ before ++ (stop.leftover ++ trailing) := by
    rw [htext]
    simp only [List.append_assoc]
  have hoffset : (ofStop text skipped (before ++ stop.leftover) stop kind).offset =
      utf8Length (skipped ++ before) := by
    rw [ofStop, utf8Length_append, utf8Length_append, Nat.add_sub_cancel]
  refine ⟨hinput, hoffset, ?_, ?_, exists_location hinput hoffset, hcause⟩
  · rw [hoffset, ← utf8Length_toList]
    show utf8Length (skipped ++ before) + 0 ≤ utf8Length text.toList
    rw [hinput, utf8Length_append (skipped ++ before)]
    exact Nat.le_add_right _ _
  · exact (if_neg hkind).symm

/-- An error that stands between two parts of its text stands at a boundary of its characters. -/
theorem StandsBetween.faithfulTo {e : ParseError} {before after : List Char}
    (h : e.StandsBetween before after) : e.FaithfulTo e.input where
  input_eq := rfl
  isValid := by
    refine String.Pos.Raw.isValid_iff_exists_append.2
      ⟨String.ofList before, String.ofList after, ?_, ?_⟩
    · rw [← String.ofList_append, ← h.input_eq, String.ofList_toList]
    · rw [h.offset_eq, ← String.toList_ofList (l := before), utf8Length_toList,
        String.toList_ofList]
      rfl
  standsBetween := ⟨before, after, h⟩

/-- The error of a text that is too long stands at the last place that is within the limit. -/
theorem standsBetween_excess {text : String} (h : maxLength < utf8Length text.toList) :
    ∃ before after, (Version.excess text).StandsBetween before after := by
  obtain ⟨after, hsplit⟩ := takeBytes_isPrefix maxLength text.toList
  refine ⟨takeBytes maxLength text.toList, after, ?_⟩
  have hlength : utf8Length text.toList =
      utf8Length (takeBytes maxLength text.toList) + utf8Length after := by
    rw [← utf8Length_append, hsplit]
  refine ⟨hsplit.symm, rfl, ?_, ?_, exists_location hsplit.symm rfl, ?_⟩
  · rw [← utf8Length_toList]
    show utf8Length (takeBytes maxLength text.toList) +
      (utf8Length text.toList - utf8Length (takeBytes maxLength text.toList)) ≤ _
    rw [Nat.add_sub_cancel' (by omega)]
    exact Nat.le_refl _
  · show _ = utf8Length after
    rw [Version.excess, hlength, Nat.add_sub_cancel_left]
  · refine ⟨hsplit.symm ▸ h, utf8Length_takeBytes_le _ _, fun t ht hle => ?_⟩
    rw [hsplit] at ht
    exact utf8Length_le_takeBytes ht hle

end ParseError

/-- What was skipped after the body of a version text. -/
theorem Version.exists_trailing (loose : Bool) (s : List Char) :
    ∃ trailing, s = beforeBody loose s ++ body loose s ++ trailing ∧
      ∀ c ∈ trailing, isBlank c = true := by
  cases loose with
  | false => exact ⟨[], by simp [beforeBody, body], by simp⟩
  | true =>
    exact ⟨trailingBlanks s, (leadingBlanks_append_trim_append_trailingBlanks s).symm,
      isBlank_of_mem_trailingBlanks⟩

theorem Version.faithfulTo_of_parse {text : String} {options : Options} {e : ParseError}
    (h : Version.parse text options = .error e) : e.FaithfulTo text := by
  rw [parse] at h
  split at h
  case isTrue hlong =>
    obtain rfl := Except.error.inj h
    obtain ⟨before, after, hplace⟩ := ParseError.standsBetween_excess hlong
    exact hplace.faithfulTo
  case isFalse =>
    split at h
    case h_1 => cases h
    case h_2 stop kind hrun =>
      obtain rfl := Except.error.inj h
      obtain ⟨before, hbody, hkind⟩ := (version_staysIn options.loose).run hrun
      obtain ⟨trailing, htext, htrailing⟩ := exists_trailing options.loose text.toList
      rw [← hbody] at htext ⊢
      refine (ParseError.standsBetween_ofStop htext ?_ ?_).faithfulTo
      · rcases hkind with rfl | hfault
        · exact ErrorKind.noConfusion
        · exact NumberFault.ne_tooLong hfault
      · rcases hkind with rfl | hfault
        · trivial
        · exact NumberFault.trueBetween hfault (avoids_of_isBlank isDigit_apart_isBlank htrailing) _

theorem Range.parse_eq_error {text : String} {options : Options} {e : ParseError}
    (h : parse text options = .error e) : Alternatives.parse text = .error e := by
  rw [parse] at h
  cases hparse : Alternatives.parse text with
  | ok alternatives =>
    rw [hparse] at h
    cases h
  | error e' =>
    rw [hparse] at h
    exact congrArg Except.error (Except.error.inj h)

theorem Range.faithfulTo_of_parse {text : String} {options : Options} {e : ParseError}
    (h : Range.parse text options = .error e) : e.FaithfulTo text ∧ e.kind ≠ .tooLong := by
  replace h := parse_eq_error h
  unfold Alternatives.parse at h
  split at h
  case h_1 => cases h
  case h_2 stop kind hrun =>
    obtain rfl := Except.error.inj h
    obtain ⟨before, hbody, hkind⟩ := alternatives_staysIn.run hrun
    have hne : kind ≠ .tooLong := by
      rcases hkind with rfl | hfault
      · exact ErrorKind.noConfusion
      · exact hfault.ne_tooLong
    have htext := (leadingBlanks_append_trim_append_trailingBlanks text.toList).symm
    rw [← hbody] at htext ⊢
    refine ⟨(ParseError.standsBetween_ofStop htext hne ?_).faithfulTo, hne⟩
    rcases hkind with rfl | hfault
    · trivial
    · exact hfault.trueBetween isBlank_of_mem_leadingBlanks isBlank_of_mem_trailingBlanks

/-- **Errors are faithful to the text.**  Each error of a version and of a range has the whole text,
stands between two characters of it, and has the line and the column of that place, which are found
by cutting the text there. What it quotes stands there: a whole run of digits that are too large a
number, or a whole run of operator characters that is no operator. It spans nothing, unless the text
is a version of too many bytes; then it spans what is beyond the last place within the limit. -/
theorem ParseError.faithful (text : String) (options : Options) :
    (∀ e, Version.parse text options = .error e → e.FaithfulTo text) ∧
      ∀ e, Range.parse text options = .error e → e.FaithfulTo text ∧ e.kind ≠ .tooLong :=
  ⟨fun _ => Version.faithfulTo_of_parse, fun _ => Range.faithfulTo_of_parse⟩

/-- A no-break space of two bytes was skipped, and the operator stands on the second line. -/
theorem ParseError.faithful_secondLine : ∃ e : ParseError,
    Range.parse "\u00a01.2 ||\n =>4" {} = .error e ∧ e.offset = 10 ∧
      e.kind = .unknownOperator "=>" ∧ e.location? = some (1, 1) ∧
        e.FaithfulTo "\u00a01.2 ||\n =>4" := by
  have hparse : Range.parse "\u00a01.2 ||\n =>4" {} = .error
      { input := "\u00a01.2 ||\n =>4", offset := 10, spanLength := 0,
        production := some .comparatorTerm, kind := .unknownOperator "=>" } := by
    decide +kernel
  exact ⟨_, hparse, rfl, rfl, by decide +kernel, ((faithful _ _).2 _ hparse).1⟩

end SemanticVersioning
