import SemanticVersioning.Proofs.Error.Placement
import SemanticVersioning.Proofs.Range.Pieces

/-!
# The first number beyond the limit is reported

A text can be refused for its numbers alone: it is of the notation but for their size. Such a text
is refused at the first number that is too large, with all its digits, whatever stands after it and
whichever form of the notation the reader was trying when it met the number.

* `Version.InPieces`, `Range.InPieces`: the text is a version or a range but for the size of its
  numbers, and which pieces of it these are.
* `ReportsFirstOverflow`: what is to become of such a text. The first field ties the pieces to the
  texts that are accepted: they are those in pieces that fit. The second field is about the others.
* `ParseError.overflow_reported`: versions and ranges.

Where a number of the text stands comes from the pieces before it. That the digits are all that
stand there is seen on both sides: after it by the reader, which takes all digits there are, and
before it by the notation (`Piece.Whole`). The blanks around the body add no digits to either side.
-/

namespace SemanticVersioning

open Reader Text

/-! ## What is to be reported -/

/-- The error is for a number of the text, which is too large, and which is a whole run of digits
between what stands before it and what stands after it. -/
structure ParseError.IsForNumber (text : String) (before digits : List Char) (e : ParseError) :
    Prop where
  input_eq : e.input = text
  offset_eq : e.offset = utf8Length before
  kind_eq : e.kind = .numericOverflow (String.ofList digits)
  large : maxSafeInteger < Nat.ofDigitChars 10 digits 0
  avoids_before : Avoids Char.isDigit before.reverse
  exists_after : ∃ after, text.toList = before ++ (digits ++ after) ∧ Avoids Char.isDigit after

/-- What is to become of a text of a notation. `InPieces` says in which pieces the text is one of
the notation but for the size of its numbers, and `skipped` stands before the pieces. The text is
accepted if the pieces fit, and otherwise refused for the first number that does not. -/
structure ReportsFirstOverflow {α : Type} (text : String) (InPieces : List Piece → Prop)
    (skipped : List Char) (result : Except ParseError α) : Prop where
  accepted_iff : (∃ a, result = .ok a) ↔ ∃ ps, InPieces ps ∧ ∀ p ∈ ps, p.Fits
  refused : ∀ ps, InPieces ps → (¬ ∀ p ∈ ps, p.Fits) → ∃ qs ds rs e,
    ps = qs ++ .figures ds :: rs ∧ (∀ p ∈ qs, p.Fits) ∧ result = .error e ∧
      e.IsForNumber text (skipped ++ Piece.textOf qs) ds

/-- The text is a version in these pieces, but for the size of its numbers. -/
structure Version.InPieces (text : String) (loose : Bool) (ps : List Piece) : Prop where
  short : text.utf8ByteSize ≤ maxLength
  spells : SpellsVersion loose ps
  textOf_eq : Piece.textOf ps = body loose text.toList

/-- The text is a range in these pieces, but for the size of its numbers. -/
structure Range.InPieces (text : String) (ps : List Piece) : Prop where
  spells : SpellsAlternatives ps
  textOf_eq : Piece.textOf ps = trim text.toList

/-! ## Whole texts -/

section Run

variable {α : Type} {p : Reader α} {ps qs rs : List Piece} {ds : List Char}

theorem Reader.Discerns.run_eq_ok (h : Discerns p ps []) (hps : ∀ x ∈ ps, x.Fits)
    (unfit : ErrorKind) : ∃ a, p.run unfit (Piece.textOf ps) = .ok a := by
  obtain ⟨a, hread⟩ := h.exists_read hps
  rw [List.append_nil] at hread
  exact ⟨a, run_eq_ok_iff.2 hread⟩

theorem Reader.Discerns.run_eq_error (h : Discerns p ps []) (hps : ¬ ∀ x ∈ ps, x.Fits)
    (unfit : ErrorKind) : ∃ qs ds rs production, Piece.FirstLarge ps [] qs ds rs ∧
      p.run unfit (Piece.textOf ps) =
        .error (⟨ds ++ Piece.textOf rs, production⟩, .numericOverflow (String.ofList ds)) := by
  obtain ⟨qs, ds, rs, production, hfirst, hrefused⟩ := h.exists_refused hps
  rw [List.append_nil, List.append_nil] at hrefused
  exact ⟨qs, ds, rs, production, hfirst, by rw [Reader.run, hrefused]⟩

/-- The error for the first number beyond the limit, where the pieces stand between blanks. -/
theorem ParseError.isForNumber_ofStop {text : String} {skipped trailing : List Char}
    {production : Option Production} (hfirst : Piece.FirstLarge ps [] qs ds rs)
    (hwhole : Piece.Whole skipped ps)
    (htext : text.toList = skipped ++ Piece.textOf ps ++ trailing)
    (htrailing : ∀ c ∈ trailing, isBlank c = true) :
    (ofStop text skipped (Piece.textOf ps) ⟨ds ++ Piece.textOf rs, production⟩
      (.numericOverflow (String.ofList ds))).IsForNumber text (skipped ++ Piece.textOf qs) ds := by
  have hbody : Piece.textOf ps = Piece.textOf qs ++ (ds ++ Piece.textOf rs) := by
    rw [hfirst.eq_append, Piece.textOf_append, Piece.textOf_figures_cons]
  have hafter : Avoids Char.isDigit (Piece.textOf rs ++ trailing) := by
    have hrest := hfirst.avoids
    rw [List.append_nil] at hrest
    exact hrest.append (avoids_of_isBlank isDigit_apart_isBlank htrailing)
  refine ⟨rfl, ?_, rfl, Nat.not_le.1 hfirst.large, hwhole qs ds rs hfirst.eq_append,
    Piece.textOf rs ++ trailing, ?_, hafter⟩
  · rw [ofStop, hbody, utf8Length_append (Piece.textOf qs), Nat.add_sub_cancel, utf8Length_append]
  · rw [htext, hbody]
    simp only [List.append_assoc]

end Run

theorem Text.avoids_isDigit_reverse_of_isBlank {s : List Char}
    (hs : ∀ c ∈ s, isBlank c = true) : Avoids Char.isDigit s.reverse :=
  avoids_of_isBlank isDigit_apart_isBlank fun c hc => hs c (List.mem_reverse.1 hc)

/-! ## Versions -/

theorem Version.isBlank_of_mem_beforeBody {loose : Bool} {s : List Char} :
    ∀ c ∈ beforeBody loose s, isBlank c = true := by
  cases loose with
  | false => exact List.forall_mem_nil _
  | true => exact isBlank_of_mem_leadingBlanks

theorem Version.reportsFirstOverflow (text : String) (options : Options) :
    ReportsFirstOverflow text (InPieces text options.loose) (beforeBody options.loose text.toList)
      (parse text options) where
  accepted_iff := by
    constructor
    · rintro ⟨v, hv⟩
      obtain ⟨hshort, hwrites, -⟩ := parse_eq_ok_iff.1 hv
      obtain ⟨ps, hspells, htext, hfits⟩ := hwrites.spelledBy
      rw [utf8Length_toList] at hshort
      exact ⟨ps, ⟨hshort, hspells, htext⟩, hfits⟩
    · rintro ⟨ps, ⟨hshort, hspells, htext⟩, hfits⟩
      obtain ⟨v, hrun⟩ := (version_discerns hspells).run_eq_ok hfits .invalidVersion
      rw [htext] at hrun
      rw [← utf8Length_toList] at hshort
      exact ⟨_, by rw [parse, if_neg (Nat.not_lt.2 hshort), hrun]⟩
  refused := by
    rintro ps ⟨hshort, hspells, htext⟩ hps
    obtain ⟨qs, ds, rs, production, hfirst, hrun⟩ :=
      (version_discerns hspells).run_eq_error hps .invalidVersion
    obtain ⟨trailing, hsplit, htrailing⟩ := exists_trailing options.loose text.toList
    have hwhole : Piece.Whole (beforeBody options.loose text.toList) ps :=
      hspells.whole (avoids_isDigit_reverse_of_isBlank isBlank_of_mem_beforeBody)
    have hparse : parse text options = .error (.ofStop text (beforeBody options.loose text.toList)
        (Piece.textOf ps) ⟨ds ++ Piece.textOf rs, production⟩
          (.numericOverflow (String.ofList ds))) := by
      rw [← utf8Length_toList] at hshort
      rw [parse, if_neg (Nat.not_lt.2 hshort), ← htext, hrun]
    rw [← htext] at hsplit
    exact ⟨qs, ds, rs, _, hfirst.eq_append, hfirst.fits, hparse,
      ParseError.isForNumber_ofStop hfirst hwhole hsplit htrailing⟩

/-! ## Ranges -/

theorem Range.parse_of_error {text : String} {e : ParseError}
    (h : Alternatives.parse text = .error e) (options : Options) :
    parse text options = .error e := by
  rw [parse, h]
  rfl

theorem Range.reportsFirstOverflow (text : String) (options : Options) :
    ReportsFirstOverflow text (InPieces text) (leadingBlanks text.toList) (parse text options) where
  accepted_iff := by
    constructor
    · rintro ⟨range, hrange⟩
      obtain ⟨alternatives, hwrites, -⟩ := parse_eq_ok_iff.1 hrange
      obtain ⟨ps, hspells, htext, hfits⟩ := hwrites.spelledBy (avoids_isLayout_trim _)
      exact ⟨ps, ⟨hspells, htext⟩, hfits⟩
    · rintro ⟨ps, ⟨hspells, htext⟩, hfits⟩
      obtain ⟨alternatives, hrun⟩ := (alternatives_discerns hspells).run_eq_ok hfits .invalidRange
      rw [htext] at hrun
      have hparse : Alternatives.parse text = .ok alternatives := by
        unfold Alternatives.parse
        rw [hrun]
      exact ⟨_, by rw [parse, hparse]; rfl⟩
  refused := by
    rintro ps ⟨hspells, htext⟩ hps
    obtain ⟨qs, ds, rs, production, hfirst, hrun⟩ :=
      (alternatives_discerns hspells).run_eq_error hps .invalidRange
    have hsplit := (leadingBlanks_append_trim_append_trailingBlanks text.toList).symm
    have hwhole : Piece.Whole (leadingBlanks text.toList) ps :=
      hspells.whole (avoids_isDigit_reverse_of_isBlank isBlank_of_mem_leadingBlanks)
    have hparse : Alternatives.parse text = .error (.ofStop text (leadingBlanks text.toList)
        (Piece.textOf ps) ⟨ds ++ Piece.textOf rs, production⟩
          (.numericOverflow (String.ofList ds))) := by
      unfold Alternatives.parse
      rw [← htext, hrun]
    rw [← htext] at hsplit
    exact ⟨qs, ds, rs, _, hfirst.eq_append, hfirst.fits, parse_of_error hparse options,
      ParseError.isForNumber_ofStop hfirst hwhole hsplit isBlank_of_mem_trailingBlanks⟩

/-- **The first number beyond the limit is reported.**  A text that is a version, strict or loose,
or a range but for the size of its numbers is refused for the first number that is too large. The
error quotes the whole run of its digits and stands where the run begins. -/
theorem ParseError.overflow_reported (text : String) (options : Options) :
    ReportsFirstOverflow text (Version.InPieces text options.loose)
        (Version.beforeBody options.loose text.toList) (Version.parse text options) ∧
      ReportsFirstOverflow text (Range.InPieces text) (leadingBlanks text.toList)
        (Range.parse text options) :=
  ⟨Version.reportsFirstOverflow text options, Range.reportsFirstOverflow text options⟩

/-- The first number beyond the limit is in the upper operand of a pair, with a needless zero. A
second one, after it, is not reported. -/
theorem ParseError.overflow_reported_upper : ∃ e,
    Range.parse "1 - 09007199254740992.9007199254740993" {} = .error e ∧ e.offset = 4 ∧
      e.kind = .numericOverflow "09007199254740992" := by
  let ps : List Piece := [.figures ['1'], .plain [' '], .plain ['-'], .plain [' '],
    .figures "09007199254740992".toList, .plain ['.'], .figures "9007199254740993".toList]
  have hfigures : ∀ ds : List Char, ds ≠ [] → ds.all Char.isDigit = true → IsFigures true ds :=
    fun ds hne hall => ⟨hne, List.all_eq_true.1 hall, Or.inl rfl⟩
  have hlower : SpellsOperand [.figures ['1']] :=
    .bare (.intro (.number (hfigures _ (by decide) (by decide))) (Or.inl rfl))
  have hminor : SpellsMinorPart [.plain ['.'], .figures "9007199254740993".toList] :=
    .intro (.number (hfigures _ (by decide) (by decide))) (Or.inl rfl)
  have hupper : SpellsOperand [.figures "09007199254740992".toList, .plain ['.'],
      .figures "9007199254740993".toList] :=
    .bare (.intro (.number (hfigures _ (by decide) (by decide))) (Or.inr hminor))
  have hspace : IsLayoutRun [' '] := ⟨by simp, by simp [isLayout]⟩
  have hpieces : Range.InPieces "1 - 09007199254740992.9007199254740993" ps :=
    ⟨.single (Or.inr (.single (.hyphen hlower hspace hspace hupper))), by decide⟩
  have hlarge : ¬ (Piece.figures "09007199254740992".toList).Fits := by decide
  have hfits : ∀ p ∈ ps.take 4, p.Fits := by decide
  have hps : ¬ ∀ p ∈ ps, p.Fits := fun h => hlarge (h _ (by simp [ps]))
  obtain ⟨qs, ds, rs, e, hsplit, hqs, hparse, hnumber⟩ :=
    (overflow_reported _ {}).2.refused ps hpieces hps
  have hds : ¬ (Piece.figures ds).Fits := Nat.not_le.2 hnumber.large
  obtain ⟨rfl, rfl⟩ := Piece.eq_of_first hsplit hfits hqs hlarge hds
  exact ⟨e, hparse, hnumber.offset_eq.trans (by decide +kernel), hnumber.kind_eq⟩

end SemanticVersioning
