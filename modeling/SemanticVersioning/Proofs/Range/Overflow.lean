import SemanticVersioning.Proofs.Range.RoundTrip
import SemanticVersioning.Proofs.Reader.Refusal

/-!
# Ranges whose text is refused

The numbers of an operand are admitted, but the numbers of its comparators need not be. The end of
a stretch is found by adding one to a number, and where that number is the largest one that is
admitted, the end is beyond the limit. Such a range is read, kept and asked about like any other.
It is written like any other too, but its text is refused.

* `operand_refuses`, `term_refuses`, `segment_refuses`: the text of a number beyond the limit is
  refused, and so is what it stands in. What stands before it is read.
* `Range.parse_render_overflows`: a range with such a number has a text that is refused for one.
* `Comparator.DrawnFrom.safe`: no end is beyond the limit if the numbers it is made up from are
  below the limit.
* `Range.parse_render_iff`: both together, for a range that was read.
-/

namespace SemanticVersioning

open Reader Text

/-! ## Numbers beyond the limit -/

/-- Whether a cause is a number beyond the limit, written without needless zeros. -/
def ErrorKind.IsOverflow (kind : ErrorKind) : Prop :=
  ∃ n, maxSafeInteger < n ∧ kind = .numericOverflow n.repr

theorem number_refuses {n : Nat} (h : maxSafeInteger < n) {rest : List Char}
    (hrest : Avoids Char.isDigit rest) :
    Refuses ErrorKind.IsOverflow (number true) (n.repr.toList ++ rest) := by
  have hscan : digits true (n.repr.toList ++ rest) = .read n.repr.toList rest :=
    charsWhile1_eq_read_iff.2 ⟨rfl, by simp, fun _ => isDigit_of_mem_repr, hrest⟩
  have hvalue : Nat.ofDigitChars 10 n.repr.toList 0 = n := by
    rw [Nat.toList_repr, Nat.ofDigitChars_ten_toDigits]
  have hcheck : safeValue n.repr.toList = .error (.numericOverflow n.repr, none) := by
    rw [safeValue, hvalue, if_neg (Nat.not_le.2 h), String.ofList_toList]
  exact .checked_of_read hscan hcheck ⟨n, h, rfl⟩

/-- A number begins with a digit. -/
theorem avoids_repr {p : Char → Bool} (hp : Apart Char.isDigit p) (n : Nat) (rest : List Char) :
    Avoids p (n.repr.toList ++ rest) := by
  obtain ⟨c, r, htext⟩ := List.exists_cons_of_ne_nil (l := n.repr.toList) (by simp)
  have hmem : c ∈ n.repr.toList := by
    rw [htext]
    exact List.mem_cons_self
  rw [htext]
  exact avoids_cons_iff.2 (hp c (isDigit_of_mem_repr hmem))

/-- A version begins as a component does. -/
theorem Version.avoids_render {p : Char → Bool} (hp : Apart isComponentStart p) (v : Version)
    (rest : List Char) : Avoids p (v.render.toList ++ rest) := by
  have hdigit : Apart Char.isDigit p :=
    hp.mono (fun _ => isComponentStart_of_isDigit) fun _ hc => hc
  rw [toList_render, List.append_assoc]
  exact avoids_repr hdigit v.core.major _

theorem component_refuses {n : Nat} (h : maxSafeInteger < n) {rest : List Char}
    (hrest : Avoids Char.isDigit rest) :
    Refuses ErrorKind.IsOverflow component (n.repr.toList ++ rest) := by
  have hnumber : Refuses ErrorKind.IsOverflow (some <$> number true) (n.repr.toList ++ rest) :=
    (number_refuses h hrest).map
  have hwildcard := avoids_repr isDigit_apart_isWildcard n rest
  rwa [Refuses, ← component_apply_of_avoids hwildcard] at hnumber

theorem component_repr {n : Nat} (h : n ≤ maxSafeInteger) {rest : List Char}
    (hrest : Avoids Char.isDigit rest) : component (n.repr.toList ++ rest) = .read (some n) rest :=
  component_complete (.number (.repr h true)) fun _ => hrest

/-! ## Operands -/

theorem literal_point (s : List Char) : literal ['.'] ('.' :: s) = .read () s :=
  literal_append ['.'] s

/-- The second and the third component of an operand stand after a point. -/
theorem component_refuses_after_point {β : Type} {next : Option Nat → Reader β} {n : Nat}
    (h : maxSafeInteger < n) {rest : List Char} (hrest : Avoids Char.isDigit rest) :
    Refuses ErrorKind.IsOverflow (literal ['.'] >>= fun _ => component >>= next)
      ('.' :: (n.repr.toList ++ rest)) :=
  .bind_of_read (literal_point _) (component_refuses h hrest).bind

theorem minorPart_refuses {m p : Nat} (h : m ≤ maxSafeInteger → maxSafeInteger < p)
    {rest : List Char} (hrest : Avoids Char.isDigit rest) :
    Refuses ErrorKind.IsOverflow minorPart
      ('.' :: (m.repr.toList ++ '.' :: (p.repr.toList ++ rest))) := by
  by_cases hm : m ≤ maxSafeInteger
  · have hpatch : Refuses ErrorKind.IsOverflow patchPart ('.' :: (p.repr.toList ++ rest)) :=
      component_refuses_after_point (h hm) hrest
    exact .bind_of_read (literal_point _)
      (.bind_of_read (component_repr hm (avoids_isDigit_point _)) hpatch.optional.bind)
  · exact component_refuses_after_point (Nat.not_le.1 hm) (avoids_isDigit_point _)

/-- **An operand is refused at the first of its numbers that is beyond the limit.** -/
theorem operand_refuses {v : Version} (hv : v.Worded) (h : ¬ v.core.Safe) {rest : List Char}
    (hrest : Avoids isQualifierChar rest) :
    Refuses ErrorKind.IsOverflow operand (v.render.toList ++ rest) := by
  have hdigit : Avoids Char.isDigit (v.qualifierText ++ rest) :=
    (hv.writesQualifier true true).avoids_isDigit (avoids_isDigit hrest)
  have hcomponents : Refuses ErrorKind.IsOverflow
      (component >>= fun x => optional minorPart >>= fun y => pure (Extent.ofComponents x y))
      (v.render.toList ++ rest) := by
    rw [Version.toList_render]
    simp only [List.append_assoc, List.cons_append]
    by_cases hmajor : v.core.major ≤ maxSafeInteger
    · have hlater : v.core.minor ≤ maxSafeInteger → maxSafeInteger < v.core.patch :=
        fun hminor => Nat.not_le.1 fun hpatch => h ⟨hmajor, hminor, hpatch⟩
      exact .bind_of_read (component_repr hmajor (avoids_isDigit_point _))
        (minorPart_refuses hlater hdigit).optional.bind
    · exact (component_refuses (Nat.not_le.1 hmajor) (avoids_isDigit_point _)).bind
  have hmark : Avoids isMark (v.render.toList ++ rest) :=
    v.avoids_render isComponentStart_apart_isMark rest
  have hspace : Avoids isInlineSpace (v.render.toList ++ rest) :=
    v.avoids_render isComponentStart_apart_isInlineSpace rest
  have hextent : Refuses ErrorKind.IsOverflow extent (v.render.toList ++ rest) := by
    rwa [Refuses, extent_apply_of_avoids hmark hspace]
  exact hextent.spelled.bind

/-! ## Terms and segments -/

/-- A comparator begins as a term does. -/
theorem Comparator.avoids_render {p : Char → Bool} (hp : Apart isTermStart p) (c : Comparator)
    (rest : List Char) : Avoids p (c.render.toList ++ rest) := by
  rcases c.toList_render_cases with ⟨-, htext⟩ | ⟨sign, hsign, htext⟩
  · have hstart : Apart isComponentStart p := hp.mono (fun x hx =>
      isTermStart_of_isOperandStart (isOperandStart_of_isComponentStart hx)) fun _ hx => hx
    rw [htext]
    exact c.version.avoids_render hstart rest
  · obtain ⟨x, r, rfl, hx⟩ := hsign.exists_first
    rw [htext]
    exact avoids_cons_iff.2 (hp x (isTermStart_of_isOperatorChar hx))

/-- **A term is refused if it is over a version with a number beyond the limit.**  The hyphenated
form is tried first, so where no sign stands in front it is this form that refuses. -/
theorem term_refuses {c : Comparator} (hc : c.version.Worded) (h : ¬ c.version.core.Safe)
    {rest : List Char} (hrest : Avoids isQualifierChar rest) :
    Refuses ErrorKind.IsOverflow term (c.render.toList ++ rest) := by
  have hoperand : Refuses ErrorKind.IsOverflow operand (c.version.render.toList ++ rest) :=
    operand_refuses hc h hrest
  rcases c.toList_render_cases with ⟨-, htext⟩ | ⟨sign, hsign, htext⟩
  · rw [htext]
    exact .orElse (.bind (.within hoperand.bind))
  · rw [htext, List.append_assoc]
    have hmiss : Misses operand (sign ++ (c.version.render.toList ++ rest)) := by
      obtain ⟨x, r, rfl, hx⟩ := hsign.exists_first
      exact operand_misses_cons (isOperatorChar_apart_isOperandStart x hx)
        (isOperatorChar_apart_isInlineSpace x hx)
    have hhyphen : Misses hyphenTerm (sign ++ (c.version.render.toList ++ rest)) :=
      hmiss.bind.within
    -- neither another sign nor a blank stands between the sign and the operand
    have hnosign : Avoids isOperatorChar (c.version.render.toList ++ rest) :=
      c.version.avoids_render (isOperatorChar_apart_isOperandStart.symm.mono
        (fun _ => isOperandStart_of_isComponentStart) fun _ hy => hy) rest
    have hspace : Avoids isInlineSpace (c.version.render.toList ++ rest) :=
      c.version.avoids_render isComponentStart_apart_isInlineSpace rest
    have hread := operator_eq_read_iff.2 ⟨sign, rfl, hsign, hnosign⟩
    have hblanks := inlineSpace_apply (c.version.render.toList ++ rest)
    rw [hspace.dropWhile_eq] at hblanks
    exact .orElse_of_misses hhyphen.bind
      (.orElse (.bind (.within (.bind_of_read hread (.bind_of_read hblanks hoperand.bind)))))

/-! ## Lists of comparators and of sets -/

/-- The comparators of a set are read and refused one by one. -/
theorem judges_comparators {cs : List Comparator} (h : ∀ c ∈ cs, c.version.Worded) :
    Judges ErrorKind.IsOverflow layout term [' '] (fun c => c.render.toList) Comparator.term
      (fun c => ¬ c.version.core.Safe) TermEnd cs where
  sep_ne_nil := by simp
  separator c _ s := by
    rw [layout_append ComparatorSet.isLayoutRun_space,
      (c.avoids_render isTermStart_apart_isLayout s).dropWhile_eq]
  follow c _ s := by
    refine ⟨.layout rfl, ?_⟩
    rw [dropWhile_append_eq ComparatorSet.isLayoutRun_space.2,
      (c.avoids_render isTermStart_apart_isLayout s).dropWhile_eq]
    exact c.avoids_render isTermStart_apart_hyphen s
  read c hc hsafe s hs := term_complete (c.writesTerm ⟨h c hc, not_not.1 hsafe⟩)
    (c.avoids_render isTermStart_apart_isLayout s) hs
  refused c hc hover s hs := term_refuses (h c hc) hover hs.1.avoids_isQualifierChar

/-- A set begins as a term does, too. -/
theorem ComparatorSet.avoids_render {p : Char → Bool} (hp : Apart isTermStart p)
    (set : ComparatorSet) (rest : List Char) : Avoids p (set.render.toList ++ rest) := by
  obtain ⟨cs⟩ := set
  cases cs with
  | nil => exact avoids_cons_iff.2 (hp '*' (by decide))
  | cons c cs =>
    rw [toList_render_of_ne_nil (by simp), List.map_cons, intercalate_cons, List.append_assoc]
    exact c.avoids_render hp _

/-- **A segment is refused if one of its comparators has a number beyond the limit.** -/
theorem segment_refuses {set : ComparatorSet} (h : ∀ c ∈ set.comparators, c.version.Worded)
    (hover : ∃ c ∈ set.comparators, ¬ c.version.core.Safe) {rest : List Char}
    (hrest : SegmentEnd rest) :
    Refuses ErrorKind.IsOverflow segment (set.render.toList ++ rest) := by
  have hne : set.comparators ≠ [] := by
    obtain ⟨c, hc, -⟩ := hover
    exact List.ne_nil_of_mem hc
  rw [ComparatorSet.toList_render_of_ne_nil hne]
  exact ((judges_comparators h).sepBy1_refuses hrest.termEnd hover).optional.map

/-- The sets of a range are read and refused one by one. -/
theorem judges_sets {sets : List ComparatorSet}
    (h : ∀ set ∈ sets, ∀ c ∈ set.comparators, c.version.Worded) :
    Judges ErrorKind.IsOverflow bars segment ['|', '|'] (fun set => set.render.toList)
      ComparatorSet.terms (fun set => ∃ c ∈ set.comparators, ¬ c.version.core.Safe) SegmentEnd
      sets where
  sep_ne_nil := by simp
  separator set _ s := by
    rw [(bars_complete _ isBars_bars).2,
      (set.avoids_render isTermStart_apart_isLayout s).dropWhile_eq]
  follow set _ s := isBars_bars.segmentEnd _
  read set hset hsafe s hs := by
    have hwritable : ∀ c ∈ set.comparators, c.version.Writable := fun c hc =>
      ⟨h set hset c hc, not_not.1 fun hover => hsafe ⟨c, hc, hover⟩⟩
    exact segment_complete (set.writesSegment hwritable)
      (set.avoids_render isTermStart_apart_isLayout s) hs
  refused set hset hover s hs := segment_refuses (h set hset) hover hs

/-! ## Whole ranges -/

namespace Range

variable {text : String} {options : Options} {range : Range}

/-- A refusal of the body of a text is the error of the text. -/
theorem parse_eq_error_of_refuses {K : ErrorKind → Prop}
    (h : Refuses K alternatives (trim text.toList)) (options : Options) :
    ∃ e, parse text options = .error e ∧ K e.kind := by
  obtain ⟨stop, kind, hkind, hrefused⟩ := h
  refine ⟨.ofStop text (leadingBlanks text.toList) (trim text.toList) stop kind, ?_, hkind⟩
  have hrun : Reader.alternatives.run .invalidRange (trim text.toList) = .error (stop, kind) := by
    rw [run, hrefused]
  have halternatives : Alternatives.parse text = .error
      (.ofStop text (leadingBlanks text.toList) (trim text.toList) stop kind) := by
    unfold Alternatives.parse
    rw [hrun]
  rw [parse, halternatives]
  rfl

/-- **A range with a number beyond the limit has a text that is refused for such a number.** -/
theorem parse_render_overflows
    (h : ∀ set ∈ range.sets, ∀ c ∈ set.comparators, c.version.Worded)
    (hover : ∃ set ∈ range.sets, ∃ c ∈ set.comparators, ¬ c.version.core.Safe)
    (options : Options) :
    ∃ e, parse range.render options = .error e ∧ e.kind.IsOverflow := by
  have hne : range.sets ≠ [] := by
    obtain ⟨set, hset, -⟩ := hover
    exact List.ne_nil_of_mem hset
  have hend : SegmentEnd [] := .endOfText (by simp)
  have hsets := (judges_sets h).sepBy1_refuses hend hover
  rw [List.append_nil, ← toList_render_of_ne_nil hne, ← (range.tight hne h).trim_eq] at hsets
  exact parse_eq_error_of_refuses hsets.map options

end Range

/-! ## Which operands lead beyond the limit -/

theorem WritesComponent.le {t : List Char} {n : Nat} (h : WritesComponent t (some n)) :
    n ≤ maxSafeInteger := by
  cases h with
  | number hn => exact hn.le

/-- The numbers of an operand that is written are admitted. -/
theorem WritesExtent.numbers_le {t : List Char} {e : Extent} (h : WritesExtent t e) :
    ∀ n ∈ e.numbers, n ≤ maxSafeInteger := by
  cases h with
  | @last _ x ha =>
    cases x with
    | none => simp [Extent.ofComponents, Extent.numbers]
    | some M => simpa [Extent.ofComponents, Extent.numbers] using ha.le
  | @more _ _ x y ha ht =>
    cases x with
    | none => simp [Extent.ofComponents, Extent.numbers]
    | some M =>
      cases ht with
      | @last _ y hb =>
        cases y with
        | none => simpa [Extent.ofComponents, Extent.numbers] using ha.le
        | some m => simpa [Extent.ofComponents, Extent.numbers] using ⟨ha.le, hb.le⟩
      | @more _ _ y _ hb ht =>
        cases y with
        | none => simpa [Extent.ofComponents, Extent.numbers] using ha.le
        | some m =>
          cases ht with
          | @intro _ _ z _ _ hc hq =>
            cases z with
            | none => simpa [Extent.ofComponents, Extent.numbers] using ⟨ha.le, hb.le⟩
            | some p => simpa [Extent.ofComponents, Extent.numbers] using ⟨ha.le, hb.le, hc.le⟩

theorem WritesOperand.numbers_le {t : List Char} {o : Operand} (h : WritesOperand t o) :
    ∀ n ∈ o.extent.numbers, n ≤ maxSafeInteger := by
  cases h with
  | marked _ _ ht => exact ht.numbers_le
  | unmarked _ ht => exact ht.numbers_le

/-- Only a number at the limit leads beyond it. -/
theorem Comparator.DrawnFrom.safe {includePrerelease : Bool} {e : Extent} {c : Comparator}
    (h : c.DrawnFrom includePrerelease e) (hlimit : ∀ n ∈ e.numbers, n < maxSafeInteger) :
    c.version.core.Safe :=
  ⟨h.reaches.1.le hlimit, h.reaches.2.1.le hlimit, h.reaches.2.2.le hlimit⟩

namespace Range

variable {text : String} {options : Options} {range : Range}

/-- A range with a number beyond the limit has a number in its text that is at the limit. -/
theorem exists_limit_of_not_safe (h : parse text options = .ok range) {set : ComparatorSet}
    (hset : set ∈ range.sets) {c : Comparator} (hc : c ∈ set.comparators)
    (hover : ¬ c.version.core.Safe) :
    ∃ alternatives : Alternatives Operand, WritesAlternatives (trim text.toList) alternatives ∧
      ∃ o ∈ alternatives.operands, maxSafeInteger ∈ o.extent.numbers := by
  obtain ⟨alternatives, htext, o, ho, ⟨t, hwrites⟩, hdrawn⟩ := exists_drawnFrom_of_parse h hset hc
  refine ⟨alternatives, htext, o, ho, by_contra fun hmem => hover (hdrawn.safe fun n hn => ?_)⟩
  rw [o.numbers_resolve] at hn
  refine Nat.lt_of_le_of_ne (hwrites.numbers_le n hn) fun heq => hmem ?_
  rwa [← heq]

/-- **When a range is written as a range.**  A range that was read has a text that is read exactly
if no number of its comparators is beyond the limit. Otherwise the text is refused for a number
beyond the limit, and a number in the text that the range was read from is at the limit. -/
theorem parse_render_iff (h : parse text options = .ok range) :
    ((∃ again, parse range.render range.options = .ok again) ↔
      ∀ set ∈ range.sets, ∀ c ∈ set.comparators, c.version.core.Safe) ∧
    ∀ e, parse range.render range.options = .error e → e.kind.IsOverflow ∧
      ∃ alternatives : Alternatives Operand, WritesAlternatives (trim text.toList) alternatives ∧
        ∃ o ∈ alternatives.operands, maxSafeInteger ∈ o.extent.numbers := by
  by_cases hsafe : ∀ set ∈ range.sets, ∀ c ∈ set.comparators, c.version.core.Safe
  · have hread := parse_render (writable_of_parse h hsafe) range.options
    refine ⟨⟨fun _ => hsafe, fun _ => ⟨_, hread⟩⟩, fun e he => ?_⟩
    exact nomatch hread.symm.trans he
  · have hover : ∃ set ∈ range.sets, ∃ c ∈ set.comparators, ¬ c.version.core.Safe := by
      simpa using hsafe
    obtain ⟨e, herror, hkind⟩ := parse_render_overflows
      (fun set hset c hc => (plain_of_parse h set hset c hc).worded) hover range.options
    refine ⟨⟨?_, fun hsafe' => absurd hsafe' hsafe⟩, fun e' he' => ⟨?_, ?_⟩⟩
    · rintro ⟨again, hagain⟩
      exact nomatch hagain.symm.trans herror
    · obtain rfl := Except.error.inj (he'.symm.trans herror)
      exact hkind
    · obtain ⟨set, hset, c, hc, hover⟩ := hover
      exact exists_limit_of_not_safe h hset hc hover

/-- On both sides of the limit: the bound `<=9007199254740990` is written as a bound that is read
again, `<=9007199254740991` is not. -/
theorem parse_render_iff_limit :
    (∃ range, parse "<=9007199254740990" {} = .ok range ∧
      ∃ again, parse range.render range.options = .ok again) ∧
    ∃ range, parse "<=9007199254740991" {} = .ok range ∧
      ¬ ∃ again, parse range.render range.options = .ok again := by
  let below : Range := { sets := [⟨[.ceiling 9007199254740991 0 0]⟩] }
  let beyond : Range := { sets := [⟨[.ceiling 9007199254740992 0 0]⟩] }
  have hbelow : parse "<=9007199254740990" {} = .ok below := by decide +kernel
  have hbeyond : parse "<=9007199254740991" {} = .ok beyond := by decide +kernel
  refine ⟨⟨below, hbelow, (parse_render_iff hbelow).1.2 (by decide)⟩, beyond, hbeyond, ?_⟩
  rw [(parse_render_iff hbeyond).1]
  decide

/-- The largest admitted number as the major number of an upper bound: the bound is put in front of
the number that follows, and this number is refused. -/
theorem exists_parse_render_eq_error : ∃ range e, parse "<=9007199254740991" {} = .ok range ∧
    range.render = "<9007199254740992.0.0-0" ∧ parse range.render range.options = .error e ∧
      e.kind = .numericOverflow "9007199254740992" := by
  let range : Range := { sets := [⟨[.ceiling 9007199254740992 0 0]⟩] }
  let e : ParseError :=
    { input := "<9007199254740992.0.0-0", offset := 1, spanLength := 0,
      production := some .comparatorTerm, kind := .numericOverflow "9007199254740992" }
  exact ⟨range, e, by decide +kernel, by decide +kernel, by decide +kernel, rfl⟩

end Range
end SemanticVersioning
