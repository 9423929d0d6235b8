import SemanticVersioning.Proofs.Range.Faults
import SemanticVersioning.Proofs.Version.Pieces

/-!
# Ranges with numbers of any size

The notation of ranges without the limit on numbers, as a relation on texts in pieces. The numbers
are the components of operands that are no wildcards, and the identifiers of digits alone in their
qualifiers. That includes components and qualifiers after a wildcard, which mean nothing.

Pieces are as the readers take them. In front of an operand and of a term nothing is skipped, and
the layout around bars belongs to the bars. What the notation allows beyond that is put in order
where a written text is taken apart (`WritesOperand.spelledBy` and so on).

A number beyond the limit is met by the first form of a term that reads so far, and no other form is
tried. An operand alone is therefore refused as the first operand of a pair
(`plainTerm_discerns`).
-/

namespace SemanticVersioning

open Reader Text

variable {isNumber : Bool} {ps qs : List Piece} {rest : List Char}

/-! ## Components -/

/-- The piece of a component, and whether it is a number. -/
inductive SpellsComponent : Bool → List Piece → Prop
  | wildcard {c : Char} : isWildcard c = true → SpellsComponent false [.plain [c]]
  | number {ds : List Char} : IsFigures true ds → SpellsComponent true [.figures ds]

theorem component_discerns (h : SpellsComponent isNumber ps)
    (hrest : isNumber = true → Avoids Char.isDigit rest) : Discerns component ps rest := by
  cases h with
  | @wildcard c hc =>
    have hread : component ([c] ++ rest) = .read none rest :=
      component_complete (.wildcard hc) (by simp)
    exact .ofRead hread
  | @number ds hds =>
    have hwildcard : Avoids isWildcard (Piece.textOf [.figures ds] ++ rest) := by
      rw [Piece.textOf_figures_cons, List.append_assoc]
      exact hds.avoids isDigit_apart_isWildcard _
    exact .congr (component_apply_of_avoids hwildcard) ((hds.number_discerns (hrest rfl)).map _)

theorem SpellsComponent.exists_first (h : SpellsComponent isNumber ps) :
    ∃ c r, Piece.textOf ps = c :: r ∧ isComponentStart c = true := by
  cases h with
  | @wildcard c hc => exact ⟨c, [], by simp, by simp [isComponentStart, hc]⟩
  | @number ds hds =>
    obtain ⟨c, r, rfl⟩ := List.exists_cons_of_ne_nil hds.ne_nil
    exact ⟨c, r, by simp, isComponentStart_of_isDigit (hds.digits c List.mem_cons_self)⟩

/-! ## Operands -/

/-- The pieces of a third component and its qualifier, after a point. -/
inductive SpellsPatchPart : List Piece → Prop
  | intro {isNumber : Bool} {ps qs : List Piece} :
      SpellsComponent isNumber ps → SpellsQualifier true isNumber qs →
        SpellsPatchPart (.plain ['.'] :: (ps ++ qs))

/-- The pieces of a second component, after a point, and perhaps of a third one. -/
inductive SpellsMinorPart : List Piece → Prop
  | intro {isNumber : Bool} {ps qs : List Piece} :
      SpellsComponent isNumber ps → qs = [] ∨ SpellsPatchPart qs →
        SpellsMinorPart (.plain ['.'] :: (ps ++ qs))

/-- The pieces of the components of an operand. -/
inductive SpellsExtent : List Piece → Prop
  | intro {isNumber : Bool} {ps qs : List Piece} :
      SpellsComponent isNumber ps → qs = [] ∨ SpellsMinorPart qs → SpellsExtent (ps ++ qs)

/-- The pieces of an operand. Only after the letter in front there may be blanks. -/
inductive SpellsOperand : List Piece → Prop
  | marked {m : Char} {blanks : List Char} {ps : List Piece} :
      isMark m = true → (∀ c ∈ blanks, isInlineSpace c = true) → SpellsExtent ps →
        SpellsOperand (.plain [m] :: .plain blanks :: ps)
  | bare {ps : List Piece} : SpellsExtent ps → SpellsOperand ps

theorem patchPart_discerns (h : SpellsPatchPart ps) (hrest : Avoids isQualifierChar rest) :
    Discerns patchPart ps rest := by
  cases h with
  | @intro isNumber ps qs hps hqs =>
    have hdigit : isNumber = true → Avoids Char.isDigit (Piece.textOf qs ++ rest) := by
      rintro rfl
      exact hqs.avoids_isDigit (avoids_isDigit hrest)
    refine .bind_plain (literal_append ['.'] _) (.bind (component_discerns hps hdigit) fun x => ?_)
    exact (qualifier_discerns hqs hrest).bind_pure

theorem minorPart_discerns (h : SpellsMinorPart ps) (hrest : Avoids isQualifierChar rest) :
    Discerns minorPart ps rest := by
  cases h with
  | @intro isNumber ps qs hps hqs =>
    have hpatch : Avoids Char.isDigit (Piece.textOf qs ++ rest) ∧
        Discerns (optional patchPart) qs rest := by
      rcases hqs with rfl | hqs
      · exact ⟨avoids_isDigit hrest, .optional_of_misses (patchPart_misses (avoids_point hrest))⟩
      · refine ⟨?_, (patchPart_discerns hqs hrest).optional⟩
        cases hqs with
        | intro => exact avoids_isDigit_point _
    refine .bind_plain (literal_append ['.'] _)
      (.bind (component_discerns hps fun _ => hpatch.1) fun x => ?_)
    exact hpatch.2.bind_pure

theorem components_discerns (h : SpellsExtent ps) (hrest : Avoids isQualifierChar rest) :
    Discerns (component >>= fun x => optional minorPart >>= fun y =>
      pure (Extent.ofComponents x y)) ps rest := by
  cases h with
  | @intro isNumber ps qs hps hqs =>
    have hminor : Avoids Char.isDigit (Piece.textOf qs ++ rest) ∧
        Discerns (optional minorPart) qs rest := by
      rcases hqs with rfl | hqs
      · exact ⟨avoids_isDigit hrest, .optional_of_misses (minorPart_misses (avoids_point hrest))⟩
      · refine ⟨?_, (minorPart_discerns hqs hrest).optional⟩
        cases hqs with
        | intro => exact avoids_isDigit_point _
    exact .bind (component_discerns hps fun _ => hminor.1) fun x => hminor.2.bind_pure

theorem SpellsExtent.exists_first (h : SpellsExtent ps) :
    ∃ c r, Piece.textOf ps = c :: r ∧ isComponentStart c = true := by
  cases h with
  | @intro _ ps qs hps _ =>
    obtain ⟨c, r, htext, hc⟩ := hps.exists_first
    exact ⟨c, r ++ Piece.textOf qs, by simp [htext], hc⟩

theorem SpellsOperand.exists_first (h : SpellsOperand ps) :
    ∃ c r, Piece.textOf ps = c :: r ∧ isOperandStart c = true := by
  cases h with
  | @marked m blanks ps hm _ _ =>
    exact ⟨m, blanks ++ Piece.textOf ps, by simp, by simp [isOperandStart, hm]⟩
  | bare hps =>
    obtain ⟨c, r, htext, hc⟩ := hps.exists_first
    exact ⟨c, r, htext, isOperandStart_of_isComponentStart hc⟩

theorem SpellsOperand.avoids {p : Char → Bool} (h : SpellsOperand ps)
    (hp : Apart isOperandStart p) (s : List Char) : Avoids p (Piece.textOf ps ++ s) :=
  avoids_of_first h.exists_first hp s

/-- All blanks are skipped. -/
theorem inlineSpace_append {blanks s : List Char} (hblanks : ∀ c ∈ blanks, isInlineSpace c = true)
    (hs : Avoids isInlineSpace s) : inlineSpace (blanks ++ s) = .read () s := by
  rw [inlineSpace_apply, dropWhile_append_eq hblanks, hs.dropWhile_eq]

/-- **An operand is discerned** in front of a rest that cannot continue it. -/
theorem operand_discerns (h : SpellsOperand ps) (hrest : Avoids isQualifierChar rest) :
    Discerns operand ps rest := by
  have hextent : Discerns extent ps rest := by
    cases h with
    | @marked m blanks ps hm hblanks hps =>
      rw [extent_eq]
      refine .bind_plain (mark_cons hm _) (.bind_plain (inlineSpace_append hblanks ?_) ?_)
      · exact avoids_of_first hps.exists_first isComponentStart_apart_isInlineSpace rest
      · exact components_discerns hps hrest
    | bare hps =>
      have hmark := avoids_of_first hps.exists_first isComponentStart_apart_isMark rest
      have hspace := avoids_of_first hps.exists_first isComponentStart_apart_isInlineSpace rest
      exact .congr (extent_apply_of_avoids hmark hspace) (components_discerns hps hrest)
  exact hextent.spelled.bind_nil fun x => .pure _ rest

/-! ## Terms -/

/-- The pieces of a term, in one of its five forms. -/
inductive SpellsTerm : List Piece → Prop
  | hyphen {ps qs : List Piece} {u w : List Char} :
      SpellsOperand ps → IsLayoutRun u → IsLayoutRun w → SpellsOperand qs →
        SpellsTerm (ps ++ .plain u :: .plain ['-'] :: .plain w :: qs)
  | compare {o blanks : List Char} {op : Operator} {ps : List Piece} :
      WritesOperator o op → (∀ c ∈ blanks, isInlineSpace c = true) → SpellsOperand ps →
        SpellsTerm (.plain o :: .plain blanks :: ps)
  | plain {ps : List Piece} : SpellsOperand ps → SpellsTerm ps
  | tilde {blanks : List Char} {ps : List Piece} :
      (∀ c ∈ blanks, isInlineSpace c = true) → SpellsOperand ps →
        SpellsTerm (.plain ['~'] :: .plain blanks :: ps)
  | tildeGreater {blanks blanks' : List Char} {ps : List Piece} :
      (∀ c ∈ blanks, isInlineSpace c = true) → (∀ c ∈ blanks', isInlineSpace c = true) →
        SpellsOperand ps →
          SpellsTerm (.plain ['~'] :: .plain blanks :: .plain ['>'] :: .plain blanks' :: ps)
  | caret {blanks : List Char} {ps : List Piece} :
      (∀ c ∈ blanks, isInlineSpace c = true) → SpellsOperand ps →
        SpellsTerm (.plain ['^'] :: .plain blanks :: ps)

theorem SpellsTerm.exists_first (h : SpellsTerm ps) :
    ∃ c r, Piece.textOf ps = c :: r ∧ isTermStart c = true := by
  have hoperand : ∀ {ps : List Piece} (s : List Char), SpellsOperand ps →
      ∃ c r, Piece.textOf ps ++ s = c :: r ∧ isTermStart c = true := by
    intro ps s hps
    obtain ⟨c, r, htext, hc⟩ := hps.exists_first
    exact ⟨c, r ++ s, by simp [htext], isTermStart_of_isOperandStart hc⟩
  cases h with
  | hyphen hps _ _ _ =>
    rw [Piece.textOf_append]
    exact hoperand _ hps
  | @compare o blanks op ps ho _ _ =>
    obtain ⟨c, r, rfl, hc⟩ := ho.exists_first
    exact ⟨c, _, rfl, isTermStart_of_isOperatorChar hc⟩
  | plain hps =>
    rw [← List.append_nil (Piece.textOf ps)]
    exact hoperand [] hps
  | tilde => exact ⟨'~', _, rfl, by decide⟩
  | tildeGreater => exact ⟨'~', _, rfl, by decide⟩
  | caret => exact ⟨'^', _, rfl, by decide⟩

namespace Reader

/-- The boundary after a term takes nothing. -/
theorem Discerns.bounded {p : Reader (Term Operand)} (h : Discerns p ps rest)
    (hrest : AtBoundary rest) : Discerns (bounded p) ps rest := by
  have hboundary : boundary rest = .read () rest := boundary_eq_read_iff.2 ⟨hrest, rfl⟩
  exact h.bind_nil fun x => .bind_skip hboundary (.pure x rest)

end Reader

theorem layout_append_of_avoids {u s : List Char} (hu : IsLayoutRun u) (hs : Avoids isLayout s) :
    layout (u ++ s) = .read () s := by
  rw [layout_append hu, hs.dropWhile_eq]

theorem isOperandStart_apart_isLayout : Apart isOperandStart isLayout :=
  isTermStart_apart_isLayout.mono (fun _ => isTermStart_of_isOperandStart) fun _ hc => hc

theorem hyphenTerm_discerns {u w : List Char} (hps : SpellsOperand ps) (hu : IsLayoutRun u)
    (hw : IsLayoutRun w) (hqs : SpellsOperand qs) (hrest : Avoids isQualifierChar rest) :
    Discerns hyphenTerm (ps ++ .plain u :: .plain ['-'] :: .plain w :: qs) rest := by
  have hlower : Avoids isQualifierChar
      (Piece.textOf (.plain u :: .plain ['-'] :: .plain w :: qs) ++ rest) := by
    rw [Piece.textOf_plain_cons, List.append_assoc]
    exact hu.avoids isLayout_apart_isQualifierChar _
  have hdash : ∀ s, Avoids isLayout ('-' :: s) := fun s => avoids_cons_iff.2 (by decide)
  have hupper := hqs.avoids isOperandStart_apart_isLayout rest
  refine .within _ (.bind (operand_discerns hps hlower) fun a => ?_)
  refine .bind_plain (layout_append_of_avoids hu (hdash _)) ?_
  refine .bind_plain (literal_append ['-'] _) ?_
  refine .bind_plain (layout_append_of_avoids hw hupper) ?_
  exact (operand_discerns hqs hrest).bind_pure

/-- Blanks and an operand after a sign. -/
theorem spacedOperand_discerns {f : Operand → Term Operand} {blanks : List Char}
    (hblanks : ∀ c ∈ blanks, isInlineSpace c = true) (hps : SpellsOperand ps)
    (hrest : Avoids isQualifierChar rest) :
    Discerns (inlineSpace >>= fun _ => operand >>= fun a => pure (f a)) (.plain blanks :: ps)
      rest :=
  .bind_plain (inlineSpace_append hblanks (hps.avoids isOperandStart_apart_isInlineSpace rest))
    (operand_discerns hps hrest).bind_pure

/-- Neither the blanks after a sign nor the operand after them begin with another sign. -/
theorem SpellsOperand.avoids_isOperatorChar {blanks : List Char} (hps : SpellsOperand ps)
    (hblanks : ∀ c ∈ blanks, isInlineSpace c = true) (s : List Char) :
    Avoids isOperatorChar (blanks ++ (Piece.textOf ps ++ s)) := by
  refine Avoids.append ?_ (hps.avoids isOperatorChar_apart_isOperandStart.symm s)
  intro c hc
  exact isOperatorChar_apart_isInlineSpace.symm c (hblanks c (List.mem_of_mem_head? hc))

theorem comparatorTerm_discerns {o blanks : List Char} {op : Operator} (ho : WritesOperator o op)
    (hblanks : ∀ c ∈ blanks, isInlineSpace c = true) (hps : SpellsOperand ps)
    (hrest : Avoids isQualifierChar rest) :
    Discerns comparatorTerm (.plain o :: .plain blanks :: ps) rest := by
  have hoperator : operator (o ++ (Piece.textOf (.plain blanks :: ps) ++ rest)) =
      .read op (Piece.textOf (.plain blanks :: ps) ++ rest) := by
    rw [Piece.textOf_plain_cons, List.append_assoc]
    exact operator_eq_read_iff.2 ⟨o, rfl, ho, hps.avoids_isOperatorChar hblanks rest⟩
  exact .within _ (.bind_plain hoperator (spacedOperand_discerns hblanks hps hrest))

theorem tildeTerm_discerns {blanks : List Char} (hblanks : ∀ c ∈ blanks, isInlineSpace c = true)
    (hps : SpellsOperand ps) (hrest : Avoids isQualifierChar rest) :
    Discerns tildeTerm (.plain ['~'] :: .plain blanks :: ps) rest := by
  have hspace := hps.avoids isOperandStart_apart_isInlineSpace rest
  have hgreater : Avoids (· == '>') (Piece.textOf ps ++ rest) :=
    (hps.avoids isOperatorChar_apart_isOperandStart.symm rest).mono fun c hc => by
      rw [eq_of_beq hc]
      decide
  have hnone : inlineSpace (Piece.textOf ps ++ rest) = .read () (Piece.textOf ps ++ rest) := by
    rw [inlineSpace_apply, hspace.dropWhile_eq]
  refine .within _ (.bind_plain (literal_append ['~'] _) ?_)
  refine .bind_plain (inlineSpace_append hblanks hspace) ?_
  refine .bind_skip (literal_singleton_misses hgreater).optional_apply ?_
  exact .bind_skip hnone (operand_discerns hps hrest).bind_pure

theorem tildeTerm_discerns_greater {blanks blanks' : List Char}
    (hblanks : ∀ c ∈ blanks, isInlineSpace c = true)
    (hblanks' : ∀ c ∈ blanks', isInlineSpace c = true) (hps : SpellsOperand ps)
    (hrest : Avoids isQualifierChar rest) :
    Discerns tildeTerm (.plain ['~'] :: .plain blanks :: .plain ['>'] :: .plain blanks' :: ps)
      rest := by
  have hsign : ∀ s, Avoids isInlineSpace ('>' :: s) := fun s => avoids_cons_iff.2 (by decide)
  refine .within _ (.bind_plain (literal_append ['~'] _) ?_)
  refine .bind_plain (inlineSpace_append hblanks (hsign _)) ?_
  refine .bind_plain (optional_apply_of_read (literal_append ['>'] _)) ?_
  exact spacedOperand_discerns hblanks' hps hrest

theorem caretTerm_discerns {blanks : List Char} (hblanks : ∀ c ∈ blanks, isInlineSpace c = true)
    (hps : SpellsOperand ps) (hrest : Avoids isQualifierChar rest) :
    Discerns caretTerm (.plain ['^'] :: .plain blanks :: ps) rest :=
  .within _ (.bind_plain (literal_append ['^'] _) (spacedOperand_discerns hblanks hps hrest))

/-- An operand alone is tried as the first operand of a pair. It is refused as such, or no hyphen
follows and it is read as a term of its own. -/
theorem plainTerm_discerns (hps : SpellsOperand ps) (hrest : TermEnd rest) :
    Discerns term ps rest := by
  have hoperand : Discerns operand ps rest :=
    operand_discerns hps hrest.1.avoids_isQualifierChar
  by_cases hfits : ∀ x ∈ ps, x.Fits
  · obtain ⟨a, hread⟩ := hoperand.exists_read hfits
    have hsign : Avoids isOperatorChar (Piece.textOf ps ++ rest) :=
      hps.avoids isOperatorChar_apart_isOperandStart.symm rest
    refine .orElse_of_misses (bounded_misses (hyphenTerm_misses_of_read hread hrest.2)) ?_
    refine .orElse_of_misses (bounded_misses (comparatorTerm_misses hsign)) (.orElse ?_)
    exact Discerns.bounded (.within _ hoperand.bind_pure) hrest.1
  · have hhyphen : Discerns hyphenTerm ps rest := .within _ (hoperand.bind_of_large hfits)
    exact .orElse (hhyphen.bounded hrest.1)

/-- **A term is discerned** in front of what can follow one. -/
theorem term_discerns (h : SpellsTerm ps) (hrest : TermEnd rest) : Discerns term ps rest := by
  have hqualifier : Avoids isQualifierChar rest := hrest.1.avoids_isQualifierChar
  have hsign : ∀ {c : Char} {us : List Piece}, isOperandStart c = false →
      isInlineSpace c = false → isOperatorChar c = false →
        Discerns (orElse (bounded tildeTerm) (bounded caretTerm)) (.plain [c] :: us) rest →
          Discerns term (.plain [c] :: us) rest := fun hstart hspace hoperator =>
    .congr (term_eq_of_sign hstart hspace hoperator)
  cases h with
  | hyphen hps hu hw hqs =>
    exact .orElse ((hyphenTerm_discerns hps hu hw hqs hqualifier).bounded hrest.1)
  | @compare o blanks op ps ho hblanks hps =>
    have hoperand : Misses operand (Piece.textOf (.plain o :: .plain blanks :: ps) ++ rest) := by
      obtain ⟨c, r, rfl, hc⟩ := ho.exists_first
      exact operand_misses_cons (isOperatorChar_apart_isOperandStart c hc)
        (isOperatorChar_apart_isInlineSpace c hc)
    refine .orElse_of_misses (bounded_misses (hyphenTerm_misses hoperand)) (.orElse ?_)
    exact (comparatorTerm_discerns ho hblanks hps hqualifier).bounded hrest.1
  | plain hps => exact plainTerm_discerns hps hrest
  | tilde hblanks hps =>
    refine hsign (by decide) (by decide) (by decide) (.orElse ?_)
    exact (tildeTerm_discerns hblanks hps hqualifier).bounded hrest.1
  | tildeGreater hblanks hblanks' hps =>
    refine hsign (by decide) (by decide) (by decide) (.orElse ?_)
    exact (tildeTerm_discerns_greater hblanks hblanks' hps hqualifier).bounded hrest.1
  | caret hblanks hps =>
    refine hsign (by decide) (by decide) (by decide) (.orElse_of_misses ?_ ?_)
    · exact bounded_misses (tildeTerm_misses (avoids_cons_iff.2 (by decide)))
    · exact (caretTerm_discerns hblanks hps hqualifier).bounded hrest.1

/-! ## Segments and alternatives -/

/-- The pieces of a segment: none, or terms with layout between them. -/
def SpellsSegment (ps : List Piece) : Prop :=
  ps = [] ∨ Joined (fun _ => IsLayoutRun) SpellsTerm ps

/-- What stands between a segment and the next one: bars, with no layout in front of them if the
segment is empty. -/
def BarsAfter (ps : List Piece) (u : List Char) : Prop :=
  IsBars u ∧ (ps = [] → Avoids isLayout u)

/-- The pieces of alternatives. -/
def SpellsAlternatives : List Piece → Prop :=
  Joined BarsAfter SpellsSegment

theorem Joined.exists_first_of_terms (h : Joined (fun _ => IsLayoutRun) SpellsTerm ps) :
    ∃ c r, Piece.textOf ps = c :: r ∧ isTermStart c = true := by
  cases h with
  | single hps => exact hps.exists_first
  | @cons ps qs u hps _ _ =>
    obtain ⟨c, r, htext, hc⟩ := hps.exists_first
    exact ⟨c, r ++ Piece.textOf (.plain u :: qs), by simp [htext], hc⟩

theorem segment_discerns (h : SpellsSegment ps) (hrest : SegmentEnd rest)
    (hempty : ps = [] → Avoids isLayout rest) : Discerns segment ps rest := by
  have hterm : Misses term (rest.dropWhile isLayout) :=
    term_misses (hrest.avoids (by decide)) (hrest.avoids (by decide))
  refine .map _ ?_
  rcases h with rfl | hps
  · rw [(hempty rfl).dropWhile_eq] at hterm
    exact .optional_of_misses hterm.sepBy1
  · have hitem : ∀ {ps s}, SpellsTerm ps → TermEnd s → Discerns term ps s := term_discerns
    have hend : Misses (layout >>= fun _ => term) rest := by
      rcases layout_cases rest with hmiss | hrun
      · exact hmiss.bind
      · exact .bind_of_read hrun hterm
    refine .optional (.sepBy1 term_staysIn hitem ?_ (fun _ => hrest.termEnd) hend hps)
    intro ps u qs _ hu hqs
    have hlayout := avoids_of_first hqs.exists_first_of_terms isTermStart_apart_isLayout rest
    refine ⟨hu.1, ⟨hu.atBoundary _, ?_⟩, layout_append_of_avoids hu hlayout⟩
    rw [dropWhile_append_eq hu.2, hlayout.dropWhile_eq]
    exact avoids_of_first hqs.exists_first_of_terms isTermStart_apart_hyphen rest

theorem SpellsAlternatives.avoids_isLayout (h : SpellsAlternatives ps) :
    Avoids isLayout (Piece.textOf ps) := by
  have hsegment : ∀ {ps : List Piece} {s : List Char}, SpellsSegment ps →
      (ps = [] → Avoids isLayout s) → Avoids isLayout (Piece.textOf ps ++ s) := by
    rintro ps s (rfl | hps) hs
    · exact hs rfl
    · exact avoids_of_first hps.exists_first_of_terms isTermStart_apart_isLayout s
  cases h with
  | single hps =>
    rw [← List.append_nil (Piece.textOf ps)]
    exact hsegment hps fun _ => avoids_nil _
  | @cons ps qs u hps hu _ =>
    rw [Piece.textOf_append]
    refine hsegment hps fun hnil => ?_
    obtain ⟨c, r, rfl⟩ := List.exists_cons_of_ne_nil (bars_complete [] hu.1).1
    exact avoids_cons_iff.2 (avoids_cons_iff.1 (hu.2 hnil))

/-- **The alternatives of a range are discerned**: they are read if their numbers are within the
limit, and refused at the first that is not. -/
theorem alternatives_discerns (h : SpellsAlternatives ps) :
    Discerns Reader.alternatives ps [] := by
  have hitem : ∀ {ps s}, SpellsSegment ps → SegmentEnd s ∧ (ps = [] → Avoids isLayout s) →
      Discerns segment ps s := fun hps hs => segment_discerns hps hs.1 hs.2
  have hend : ∀ {ps}, SpellsSegment ps → SegmentEnd [] ∧ (ps = [] → Avoids isLayout []) :=
    fun _ => ⟨.endOfText (by simp), fun _ => avoids_nil _⟩
  refine .map _ (.sepBy1 segment_staysIn hitem ?_ hend bars_misses_nil.bind h)
  intro ps u qs _ hu hqs
  obtain ⟨hne, hread⟩ := bars_complete (Piece.textOf qs ++ []) hu.1
  have hlayout : Avoids isLayout (Piece.textOf qs ++ []) := by
    rw [List.append_nil]
    exact SpellsAlternatives.avoids_isLayout hqs
  rw [hlayout.dropWhile_eq] at hread
  exact ⟨hne, ⟨hu.1.segmentEnd _, fun hnil => (hu.2 hnil).append hlayout⟩, hread⟩

/-! ## Where numbers begin -/

/-- A component that is a number stands after no digit, and after one that is none a qualifier may
begin with a digit. -/
theorem SpellsComponent.whole {before : List Char} (h : SpellsComponent isNumber ps)
    (hbefore : Avoids Char.isDigit before.reverse) : Piece.Whole before ps ∧
      (isNumber = false → Avoids Char.isDigit (before ++ Piece.textOf ps).reverse) := by
  cases h with
  | @wildcard c hc =>
    refine ⟨.plain before [c], fun _ => ?_⟩
    refine avoids_reverse_append (by simp) fun x hx => ?_
    obtain rfl : x = c := by simpa using hx
    exact isDigit_apart_isWildcard.symm x hc
  | @number ds _ => exact ⟨.figures hbefore ds, by simp⟩

/-- Each further part of an operand begins with a point. -/
theorem SpellsPatchPart.whole (h : SpellsPatchPart ps) (before : List Char) :
    Piece.Whole before ps := by
  cases h with
  | intro hps hqs =>
    obtain ⟨hwhole, hnumber⟩ := hps.whole (avoids_isDigit_reverse_point before)
    exact .cons_plain (hwhole.append (hqs.whole hnumber))

theorem SpellsMinorPart.whole (h : SpellsMinorPart ps) (before : List Char) :
    Piece.Whole before ps := by
  cases h with
  | intro hps hqs =>
    refine .cons_plain ((hps.whole (avoids_isDigit_reverse_point before)).1.append ?_)
    rcases hqs with rfl | hqs
    · exact .nil _
    · exact hqs.whole _

theorem SpellsExtent.whole {before : List Char} (h : SpellsExtent ps)
    (hbefore : Avoids Char.isDigit before.reverse) : Piece.Whole before ps := by
  cases h with
  | intro hps hqs =>
    refine (hps.whole hbefore).1.append ?_
    rcases hqs with rfl | hqs
    · exact .nil _
    · exact hqs.whole _

theorem isOperandStart_of_isDigit {c : Char} (h : c.isDigit = true) : isOperandStart c = true :=
  isOperandStart_of_isComponentStart (isComponentStart_of_isDigit h)

theorem isDigit_apart_isLayout : Apart Char.isDigit isLayout :=
  isOperandStart_apart_isLayout.mono (fun _ => isOperandStart_of_isDigit) fun _ hc => hc

theorem avoids_isDigit_reverse_of_isLayout {before u : List Char}
    (hbefore : u = [] → Avoids Char.isDigit before.reverse) (hu : ∀ c ∈ u, isLayout c = true) :
    Avoids Char.isDigit (before ++ u).reverse :=
  avoids_reverse_append hbefore fun c hc =>
    isDigit_apart_isLayout.symm c (hu c hc)

/-- Blanks after a sign, or after a letter, end in no digit. -/
theorem avoids_isDigit_reverse_spaced {before u blanks : List Char} (hne : u ≠ [])
    (hu : ∀ c ∈ u, c.isDigit = false) (hblanks : ∀ c ∈ blanks, isInlineSpace c = true) :
    Avoids Char.isDigit (before ++ u ++ blanks).reverse :=
  avoids_isDigit_reverse_of_isLayout
    (fun _ => avoids_reverse_append (fun hnil => absurd hnil hne) hu)
    fun c hc => isLayout_of_isInlineSpace (hblanks c hc)

theorem SpellsOperand.whole {before : List Char} (h : SpellsOperand ps)
    (hbefore : Avoids Char.isDigit before.reverse) : Piece.Whole before ps := by
  cases h with
  | @marked m blanks ps hm hblanks hps =>
    have hmark : ∀ c ∈ [m], c.isDigit = false := by
      intro c hc
      obtain rfl : c = m := by simpa using hc
      simp only [isMark, Bool.or_eq_true, beq_iff_eq] at hm
      rcases hm with rfl | rfl <;> decide
    exact .cons_plain (.cons_plain
      (hps.whole (avoids_isDigit_reverse_spaced (by simp) hmark hblanks)))
  | bare hps => exact hps.whole hbefore

theorem SpellsTerm.whole {before : List Char} (h : SpellsTerm ps)
    (hbefore : Avoids Char.isDigit before.reverse) : Piece.Whole before ps := by
  cases h with
  | @hyphen ps qs u w hps _ hw hqs =>
    have hupper : ∀ s, Avoids Char.isDigit (s ++ w).reverse := fun s =>
      avoids_isDigit_reverse_of_isLayout (fun hnil => absurd hnil hw.1) hw.2
    have hqs' := fun s => hqs.whole (hupper s)
    exact (hps.whole hbefore).append (.cons_plain (.cons_plain (.cons_plain (hqs' _))))
  | @compare o blanks op ps ho hblanks hps =>
    have hapart : Apart isOperatorChar Char.isDigit :=
      isOperatorChar_apart_isOperandStart.mono (fun _ hc => hc) fun _ => isOperandStart_of_isDigit
    have hsign : ∀ c ∈ o, c.isDigit = false := fun c hc => hapart c (ho.isOperatorChar.2 c hc)
    exact .cons_plain (.cons_plain (hps.whole
      (avoids_isDigit_reverse_spaced ho.isOperatorChar.1 hsign hblanks)))
  | plain hps => exact hps.whole hbefore
  | tilde hblanks hps =>
    exact .cons_plain (.cons_plain (hps.whole
      (avoids_isDigit_reverse_spaced (by simp) (by simp) hblanks)))
  | tildeGreater _ hblanks' hps =>
    exact .cons_plain (.cons_plain (.cons_plain (.cons_plain (hps.whole
      (avoids_isDigit_reverse_spaced (by simp) (by simp) hblanks')))))
  | caret hblanks hps =>
    exact .cons_plain (.cons_plain (hps.whole
      (avoids_isDigit_reverse_spaced (by simp) (by simp) hblanks)))

theorem SpellsSegment.whole {before : List Char} (h : SpellsSegment ps)
    (hbefore : Avoids Char.isDigit before.reverse) : Piece.Whole before ps := by
  rcases h with rfl | hps
  · exact .nil before
  · refine hps.whole (P := fun before _ => Avoids Char.isDigit before.reverse) SpellsTerm.whole
      (fun h => h) (fun hu _ => ?_) hbefore
    exact avoids_isDigit_reverse_of_isLayout (fun hnil => absurd hnil hu.1) hu.2

theorem SpellsAlternatives.whole {before : List Char} (h : SpellsAlternatives ps)
    (hbefore : Avoids Char.isDigit before.reverse) : Piece.Whole before ps := by
  refine Joined.whole (P := fun before _ => Avoids Char.isDigit before.reverse) SpellsSegment.whole
    (fun h => h) (fun hu _ => ?_) h hbefore
  obtain ⟨hne, -⟩ := bars_complete [] hu.1
  exact avoids_reverse_append (fun hnil => absurd hnil hne)
    (hu.1.forall_mem isDigit_apart_isLayout.symm rfl)

/-! ## Within the limit -/

theorem WritesComponent.spelledBy {t : List Char} {x : Option Nat} (h : WritesComponent t x) :
    SpelledBy (SpellsComponent x.isSome) t := by
  cases h with
  | @wildcard c hc => exact ⟨[.plain [c]], .wildcard hc, by simp, by simp⟩
  | number hn =>
    refine hn.spelledBy.mono ?_
    rintro ps rfl
    exact .number hn.isFigures

theorem WritesPatchPart.spelledBy {t : List Char} {z : Option Nat × List Identifier × List String}
    (h : WritesPatchPart t z) : SpelledBy SpellsPatchPart t := by
  cases h with
  | @intro c q z is parts hc hq =>
    have hparts : SpelledBy (fun ps => SpellsPatchPart (.plain ['.'] :: ps)) (c ++ q) :=
      hc.spelledBy.append hq.spelledBy .intro
    exact hparts.cons

theorem WritesMinorPart.spelledBy {t : List Char}
    {y : Option Nat × Option (Option Nat × List Identifier × List String)}
    (h : WritesMinorPart t y) : SpelledBy SpellsMinorPart t := by
  cases h with
  | @last b y hb =>
    have hlast : SpelledBy (fun ps => SpellsMinorPart (.plain ['.'] :: ps)) b := by
      refine hb.spelledBy.mono fun {ps} hps => ?_
      have hintro : SpellsMinorPart (.plain ['.'] :: (ps ++ [])) := .intro hps (Or.inl rfl)
      rwa [List.append_nil] at hintro
    exact hlast.cons
  | @more b t y z hb ht =>
    have hmore : SpelledBy (fun ps => SpellsMinorPart (.plain ['.'] :: ps)) (b ++ t) :=
      hb.spelledBy.append ht.spelledBy fun hps hqs => .intro hps (Or.inr hqs)
    exact hmore.cons

theorem WritesExtent.spelledBy {t : List Char} {e : Extent} (h : WritesExtent t e) :
    SpelledBy SpellsExtent t := by
  cases h with
  | last ha =>
    refine ha.spelledBy.mono fun {ps} hps => ?_
    have hintro : SpellsExtent (ps ++ []) := .intro hps (Or.inl rfl)
    rwa [List.append_nil] at hintro
  | more ha ht => exact ha.spelledBy.append ht.spelledBy fun hps hqs => .intro hps (Or.inr hqs)

/-- An operand is taken apart without the blanks in front of it. -/
theorem WritesOperand.spelledBy {t : List Char} {o : Operand} (h : WritesOperand t o) :
    SpelledBy SpellsOperand o.text.toList := by
  cases h with
  | @marked m blanks t e hm hblanks ht =>
    have hmarked : SpelledBy (fun ps => SpellsOperand (.plain [m] :: .plain blanks :: ps)) t :=
      ht.spelledBy.mono (.marked hm hblanks)
    rw [String.toList_ofList]
    exact hmarked.cons.cons
  | @unmarked blanks t e _ ht =>
    rw [String.toList_ofList]
    exact ht.spelledBy.mono .bare

/-- Blanks may be written in front of an operand. They go to the blanks before it. -/
theorem WritesOperand.exists_blanks_append {blanks t : List Char} {o : Operand}
    (h : WritesOperand t o) (hblanks : ∀ c ∈ blanks, isInlineSpace c = true) :
    ∃ blanks', (∀ c ∈ blanks', isInlineSpace c = true) ∧
      blanks ++ t = blanks' ++ o.text.toList := by
  obtain ⟨inner, hinner, rfl, -⟩ := h.exists_blanks
  exact ⟨blanks ++ inner, List.forall_mem_append.2 ⟨hblanks, hinner⟩,
    (List.append_assoc _ _ _).symm⟩

/-- The layout in front of an operand is dropped up to its own text. -/
theorem WritesOperand.dropWhile_isLayout {t : List Char} {o : Operand} (h : WritesOperand t o)
    (s : List Char) : (t ++ s).dropWhile isLayout = o.text.toList ++ s := by
  have hdrop := h.dropWhile_append (fun _ => isLayout_of_isInlineSpace)
    isOperandStart_apart_isLayout (List.forall_mem_nil _) s
  rwa [List.nil_append] at hdrop

theorem IsLayoutRun.append {u w : List Char} (hu : IsLayoutRun u)
    (hw : ∀ c ∈ w, isLayout c = true) : IsLayoutRun (u ++ w) :=
  ⟨List.append_ne_nil_of_left_ne_nil hu.1 w, List.forall_mem_append.2 ⟨hu.2, hw⟩⟩

/-- A term is taken apart without the layout in front of it. -/
theorem WritesTerm.spelledBy {t : List Char} {x : Term Operand} (h : WritesTerm t x) :
    SpelledBy SpellsTerm (t.dropWhile isLayout) := by
  cases h with
  | @hyphen t u w r a b ha hu hw hb =>
    obtain ⟨inner, hinner, rfl, -⟩ := hb.exists_blanks
    have hw' : IsLayoutRun (w ++ inner) :=
      hw.append fun c hc => isLayout_of_isInlineSpace (hinner c hc)
    obtain ⟨ps, hps, hlower, hfits⟩ := ha.spelledBy
    obtain ⟨qs, hqs, hupper, hfits'⟩ := hb.spelledBy
    refine ⟨_, .hyphen hps hu hw' hqs, ?_, ?_⟩
    · rw [ha.dropWhile_isLayout]
      simp [hlower, hupper]
    · simp only [List.forall_mem_append, List.forall_mem_cons]
      exact ⟨hfits, Piece.fits_plain u, Piece.fits_plain _, Piece.fits_plain _, hfits'⟩
  | @compare o blanks t op a ho hblanks ha =>
    obtain ⟨blanks', hblanks', htext⟩ := ha.exists_blanks_append hblanks
    have hstart : Avoids isLayout (o ++ (blanks' ++ a.text.toList)) := by
      refine avoids_of_first ho.exists_first ?_ _
      exact isTermStart_apart_isLayout.mono (fun _ => isTermStart_of_isOperatorChar) fun _ hc => hc
    have hcompare : SpelledBy (fun ps => SpellsTerm (.plain o :: .plain blanks' :: ps))
        a.text.toList := ha.spelledBy.mono (.compare ho hblanks')
    rw [htext, hstart.dropWhile_eq]
    exact hcompare.cons.cons
  | @plain _ a ha =>
    have hdrop := ha.dropWhile_isLayout []
    rw [List.append_nil, List.append_nil] at hdrop
    rw [hdrop]
    exact ha.spelledBy.mono .plain
  | @tilde blanks g blanks' t a hblanks hg hblanks' ha =>
    obtain ⟨after, hafter, htext⟩ := ha.exists_blanks_append hblanks'
    rw [htext, Avoids.dropWhile_eq (avoids_cons_iff.2 (by decide))]
    rcases hg with rfl | rfl
    · -- without a sign between them the blanks are one run
      have htilde : SpelledBy
          (fun ps => SpellsTerm (.plain ['~'] :: .plain (blanks ++ after) :: ps)) a.text.toList :=
        ha.spelledBy.mono (.tilde (List.forall_mem_append.2 ⟨hblanks, hafter⟩))
      rw [List.nil_append, ← List.append_assoc]
      exact htilde.cons.cons
    · have htilde : SpelledBy (fun ps => SpellsTerm
          (.plain ['~'] :: .plain blanks :: .plain ['>'] :: .plain after :: ps)) a.text.toList :=
        ha.spelledBy.mono (.tildeGreater hblanks hafter)
      exact htilde.cons.cons.cons.cons
  | @caret blanks t a hblanks ha =>
    obtain ⟨blanks', hblanks', htext⟩ := ha.exists_blanks_append hblanks
    have hcaret : SpelledBy (fun ps => SpellsTerm (.plain ['^'] :: .plain blanks' :: ps))
        a.text.toList := ha.spelledBy.mono (.caret hblanks')
    rw [htext, Avoids.dropWhile_eq (avoids_cons_iff.2 (by decide))]
    exact hcaret.cons.cons

theorem WritesSegment.spelledBy {t : List Char} {ts : List (Term Operand)}
    (h : WritesSegment t ts) : SpelledBy SpellsSegment (t.dropWhile isLayout) := by
  cases h with
  | absent => exact ⟨[], Or.inl rfl, rfl, by simp⟩
  | present ht =>
    have hterms : SpelledBy (Joined (fun _ => IsLayoutRun) SpellsTerm) (t.dropWhile isLayout) := by
      refine ht.spelledBy_dropWhile WritesTerm.spelledBy ?_
      intro t ps u blanks hps htext hu hblanks
      refine ⟨u ++ blanks, hu.append hblanks, fun s => ?_⟩
      obtain ⟨c, r, hfirst, -⟩ := hps.exists_first
      have hne : t.dropWhile isLayout ≠ [] := by simp [← htext, hfirst]
      rw [dropWhile_append_of_ne_nil hne, ← htext, List.append_assoc u]
    exact hterms.mono Or.inr

theorem IsBars.append {u w : List Char} (hu : IsBars u) (hw : ∀ c ∈ w, isLayout c = true) :
    IsBars (u ++ w) := by
  cases hu with
  | @intro u v hu hv =>
    rw [List.append_assoc, List.cons_append, List.cons_append]
    exact .intro hu (List.forall_mem_append.2 ⟨hv, hw⟩)

/-- What is written within the limit can be taken apart into pieces that fit. -/
theorem WritesAlternatives.spelledBy {t : List Char} {alternatives : Alternatives Operand}
    (h : WritesAlternatives t alternatives) (ht : Avoids isLayout t) :
    SpelledBy SpellsAlternatives t := by
  rw [← ht.dropWhile_eq]
  refine Separated.spelledBy_dropWhile WritesSegment.spelledBy ?_ h
  intro t ps u blanks hps htext hu hblanks
  rcases hps with rfl | hps
  · -- in front of an empty segment the layout is dropped from the bars
    obtain ⟨u', hdrop, hu'⟩ := hu.exists_tight
    refine ⟨u' ++ blanks, ⟨hu'.append hblanks, fun _ => ?_⟩, fun s => ?_⟩
    · rw [← hdrop]
      exact avoids_dropWhile _ _
    · have hskip : (t ++ (u ++ (blanks ++ s))).dropWhile isLayout =
          (u ++ (blanks ++ s)).dropWhile isLayout := by
        rw [List.dropWhile_append, if_pos]
        rw [← htext]
        rfl
      rw [hskip, hdrop, List.append_assoc]
      rfl
  · obtain ⟨c, r, hfirst, -⟩ := hps.exists_first_of_terms
    have hne : t.dropWhile isLayout ≠ [] := by simp [← htext, hfirst]
    refine ⟨u ++ blanks, ⟨hu.append hblanks, ?_⟩, fun s => ?_⟩
    · rintro rfl
      cases hfirst
    · rw [dropWhile_append_of_ne_nil hne, ← htext, List.append_assoc u]

end SemanticVersioning
