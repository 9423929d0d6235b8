import SemanticVersioning.Proofs.Range.OperandText
import SemanticVersioning.Proofs.Version.Faults

/-!
# What is wrong where a range is refused

A range is refused for a number, as a version is, or for a run of operator characters that is no
operator (`OperatorFault`). The second is said of a whole run: it goes on neither after the place at
which the reader stopped nor before it. The part before is not seen by the reader of operators. It
holds because operators are read at the beginning of a term only, and what stands before a term is
never an operator character. Within a term the fault is therefore one of the very beginning
(`TermFault`), and of a list it is one behind a separator (`SeparatedFault`) or behind nothing
(`RangeFault`).
-/

namespace SemanticVersioning

open Reader Text Fault

/-- What is wrong with an operator at the front of a text: the operator characters that stand there
are none. -/
inductive OperatorFault (after : List Char) : ErrorKind → Prop
  | unknown : after.takeWhile isOperatorChar ≠ [] →
      (∀ op, ¬ WritesOperator (after.takeWhile isOperatorChar) op) →
      OperatorFault after (.unknownOperator (String.ofList (after.takeWhile isOperatorChar)))

/-- What is wrong with a term. -/
inductive TermFault : Fault
  | number {before after : List Char} {kind : ErrorKind} :
      NumberFault after kind → TermFault before after kind
  | operator {after : List Char} {kind : ErrorKind} :
      OperatorFault after kind → TermFault [] after kind

/-- What is wrong with a range, or with the part of it after some segments and terms. -/
inductive RangeFault : Fault
  | number {before after : List Char} {kind : ErrorKind} :
      NumberFault after kind → RangeFault before after kind
  | operator {before after : List Char} {kind : ErrorKind} :
      Avoids isOperatorChar before.reverse → OperatorFault after kind →
        RangeFault before after kind

/-- What is wrong with a range behind its first segment, or with a segment behind its first term: an
operator there stands after something. -/
inductive SeparatedFault : Fault
  | number {before after : List Char} {kind : ErrorKind} :
      NumberFault after kind → SeparatedFault before after kind
  | operator {before after : List Char} {kind : ErrorKind} :
      before ≠ [] → Avoids isOperatorChar before.reverse → OperatorFault after kind →
        SeparatedFault before after kind

theorem TermFault.rangeFault {before after : List Char} {kind : ErrorKind}
    (h : TermFault before after kind) : RangeFault before after kind := by
  cases h with
  | number h => exact .number h
  | operator h => exact .operator (avoids_nil _) h

theorem SeparatedFault.rangeFault {before after : List Char} {kind : ErrorKind}
    (h : SeparatedFault before after kind) : RangeFault before after kind := by
  cases h with
  | number h => exact .number h
  | operator _ hbefore h => exact .operator hbefore h

/-- More text before a fault makes no difference if it does not end in an operator character. -/
theorem RangeFault.shift {t before after : List Char} {kind : ErrorKind}
    (ht : Avoids isOperatorChar t.reverse) (h : RangeFault before after kind) :
    RangeFault (t ++ before) after kind := by
  cases h with
  | number h => exact .number h
  | operator hbefore h =>
    refine .operator ?_ h
    rw [List.reverse_append]
    exact hbefore.append ht

/-- A fault is one behind a separator if there is one before it. -/
theorem RangeFault.separated {t before after : List Char} {kind : ErrorKind} (hne : t ≠ [])
    (ht : Avoids isOperatorChar t.reverse) (h : RangeFault before after kind) :
    SeparatedFault (t ++ before) after kind := by
  cases h.shift ht with
  | number h => exact .number h
  | operator hbefore h => exact .operator (List.append_ne_nil_of_left_ne_nil hne _) hbefore h

theorem shifts_separatedFault : Shifts SeparatedFault := by
  intro t before after kind h
  cases h with
  | number h => exact .number h
  | operator hne hbefore h =>
    refine .operator (List.append_ne_nil_of_right_ne_nil _ hne) ?_ h
    rw [List.reverse_append]
    obtain ⟨c, r, hr⟩ := List.exists_cons_of_ne_nil (fun h => hne (List.reverse_eq_nil_iff.1 h))
    rw [hr] at hbefore ⊢
    exact avoids_cons_iff.2 (avoids_cons_iff.1 hbefore)

/-! ## What stands before a term -/

theorem isOperatorChar_apart_isLayout : Apart isOperatorChar isLayout :=
  isOperatorChar_apart_isBlank.mono (fun _ hc => hc) fun _ => isBlank_of_isLayout

theorem IsLayoutRun.avoids_isOperatorChar_reverse {u : List Char} (h : IsLayoutRun u) :
    Avoids isOperatorChar u.reverse :=
  avoids_reverse fun c hc => isOperatorChar_apart_isLayout.symm c (h.2 c hc)

theorem IsBars.avoids_isOperatorChar_reverse {u : List Char} (h : IsBars u) :
    u ≠ [] ∧ Avoids isOperatorChar u.reverse :=
  ⟨(bars_complete [] h).1, avoids_reverse (h.forall_mem isOperatorChar_apart_isLayout.symm rfl)⟩

namespace Reader

variable {F : Fault}

/-! ## Operands -/

theorem component_staysIn : StaysIn (ofAfter NumberFault) component := by
  refine .orElse (.map _ ?_) (.map _ (number_staysIn true))
  exact .orElse (.literal _) (.orElse (.literal _) (.literal _))

theorem inlineSpace_staysIn (hF : Shifts F) : StaysIn F inlineSpace :=
  .bind hF (.charsWhile _) fun _ => .pure _

theorem patchPart_staysIn : StaysIn (ofAfter NumberFault) patchPart := by
  have hF := shifts_ofAfter NumberFault
  refine .bind hF (.literal _) fun _ => .bind hF component_staysIn fun _ => ?_
  exact .bind hF (qualifier_staysIn true) fun _ => .pure _

theorem minorPart_staysIn : StaysIn (ofAfter NumberFault) minorPart := by
  have hF := shifts_ofAfter NumberFault
  refine .bind hF (.literal _) fun _ => .bind hF component_staysIn fun _ => ?_
  exact .bind hF (.optional patchPart_staysIn) fun _ => .pure _

theorem operand_staysIn : StaysIn (ofAfter NumberFault) operand := by
  have hF := shifts_ofAfter NumberFault
  have hextent : StaysIn (ofAfter NumberFault) extent := by
    refine .bind hF (.optional (.orElse (.literal _) (.literal _))) fun _ => ?_
    refine .bind hF (inlineSpace_staysIn hF) fun _ => .bind hF component_staysIn fun _ => ?_
    exact .bind hF (.optional minorPart_staysIn) fun _ => .pure _
  exact .bind hF (.spelled hextent) fun _ => .pure _

/-! ## Terms -/

theorem layout_staysIn (hF : Shifts F) : StaysIn F layout :=
  .bind hF (.charsWhile1 _) fun _ => .pure _

theorem operatorOfToken_eq_error {token : List Char} {kind : ErrorKind}
    {production : Option Production} (h : operatorOfToken token = .error (kind, production)) :
    (∀ op, ¬ WritesOperator token op) ∧ kind = .unknownOperator (String.ofList token) := by
  constructor
  · intro op hop
    rw [operatorOfToken_eq_ok_iff.2 hop] at h
    cases h
  · unfold operatorOfToken at h
    split at h
    case h_6 =>
      exact (Prod.mk.inj (Except.error.inj h)).1.symm
    all_goals cases h

/-- All operator characters that stand there are taken for the operator. -/
theorem operator_staysIn : StaysIn TermFault operator := by
  refine .checked (.charsWhile1 _) fun {s token rest kind production} hread hcheck => ?_
  obtain ⟨rfl, hne, htoken, hrest⟩ := charsWhile1_eq_read_iff.1 hread
  obtain ⟨hunknown, rfl⟩ := operatorOfToken_eq_error hcheck
  have htake : (token ++ rest).takeWhile isOperatorChar = token := takeWhile_append_eq htoken hrest
  have hfault : OperatorFault (token ++ rest) (.unknownOperator
      (String.ofList ((token ++ rest).takeWhile isOperatorChar))) :=
    .unknown (by rwa [htake]) (by rwa [htake])
  rw [htake] at hfault
  exact .operator hfault

/-- An operator is read at the beginning of its term, and nothing after it is wrong but numbers. -/
theorem comparatorTerm_staysIn : StaysIn TermFault comparatorTerm := by
  have hF := shifts_ofAfter NumberFault
  refine .within _ (.bind_of_shift operator_staysIn (G := ofAfter NumberFault) (fun _ => ?_)
    fun _ _ _ _ hfault => .number hfault)
  refine .bind hF (inlineSpace_staysIn hF) fun _ => ?_
  exact .bind hF operand_staysIn fun _ => .pure _

theorem hyphenTerm_staysIn : StaysIn (ofAfter NumberFault) hyphenTerm := by
  have hF := shifts_ofAfter NumberFault
  refine .within _ (.bind hF operand_staysIn fun _ => .bind hF (layout_staysIn hF) fun _ => ?_)
  refine .bind hF (.literal _) fun _ => .bind hF (layout_staysIn hF) fun _ => ?_
  exact .bind hF operand_staysIn fun _ => .pure _

theorem plainTerm_staysIn : StaysIn (ofAfter NumberFault) plainTerm :=
  .within _ (.bind (shifts_ofAfter NumberFault) operand_staysIn fun _ => .pure _)

theorem tildeTerm_staysIn : StaysIn (ofAfter NumberFault) tildeTerm := by
  have hF := shifts_ofAfter NumberFault
  refine .within _ (.bind hF (.literal _) fun _ => .bind hF (inlineSpace_staysIn hF) fun _ => ?_)
  refine .bind hF (.optional (.literal _)) fun _ => .bind hF (inlineSpace_staysIn hF) fun _ => ?_
  exact .bind hF operand_staysIn fun _ => .pure _

theorem caretTerm_staysIn : StaysIn (ofAfter NumberFault) caretTerm := by
  have hF := shifts_ofAfter NumberFault
  refine .within _ (.bind hF (.literal _) fun _ => .bind hF (inlineSpace_staysIn hF) fun _ => ?_)
  exact .bind hF operand_staysIn fun _ => .pure _

/-- The boundary after a term is never wrong, at most missed. -/
theorem bounded_staysIn {p : Reader (Term Operand)} (h : StaysIn TermFault p) :
    StaysIn TermFault (bounded p) := by
  have hF := shifts_ofAfter NumberFault
  have hboundary : StaysIn (ofAfter NumberFault) boundary :=
    .lookahead (.orElse (layout_staysIn hF) (.orElse (.literal _) .endOfText))
  exact .bind_of_shift h (fun _ => .bind hF hboundary fun _ => .pure _)
    fun _ _ _ _ hfault => .number hfault

theorem term_staysIn : StaysIn TermFault term := by
  have hnumber : ∀ {p : Reader (Term Operand)}, StaysIn (ofAfter NumberFault) p →
      StaysIn TermFault (bounded p) := fun h => bounded_staysIn (h.mono fun _ _ _ => .number)
  refine .orElse (hnumber hyphenTerm_staysIn) (.orElse (bounded_staysIn comparatorTerm_staysIn) ?_)
  exact .orElse (hnumber plainTerm_staysIn)
    (.orElse (hnumber tildeTerm_staysIn) (hnumber caretTerm_staysIn))

/-! ## Lists of terms and of segments -/

/-- A list whose separators do not end in an operator character. -/
theorem sepBy1_staysIn {α : Type} {separator : Reader Unit} {item : Reader α}
    (hsep : StaysIn SeparatedFault separator) (hitem : StaysIn RangeFault item)
    (hend : ∀ {t rest}, separator (t ++ rest) = .read () rest →
      t ≠ [] ∧ Avoids isOperatorChar t.reverse) :
    StaysIn RangeFault (sepBy1 separator item) :=
  .sepBy1 shifts_separatedFault hsep hitem
    (fun hread _ _ _ hfault => hfault.separated (hend hread).1 (hend hread).2)
    fun _ _ _ => SeparatedFault.rangeFault

theorem segment_staysIn : StaysIn RangeFault segment := by
  refine .map _ (.optional ?_)
  refine sepBy1_staysIn (layout_staysIn shifts_separatedFault)
    (term_staysIn.mono fun _ _ _ => TermFault.rangeFault) fun hread => ?_
  obtain ⟨u, hsplit, hu, -⟩ := layout_eq_read_iff.1 hread
  obtain rfl := List.append_cancel_right hsplit
  exact ⟨hu.1, hu.avoids_isOperatorChar_reverse⟩

theorem bars_staysIn (hF : Shifts F) : StaysIn F bars := by
  refine .bind hF (.charsWhile _) fun _ => .bind hF (.literal _) fun _ => ?_
  exact .bind hF (.charsWhile _) fun _ => .pure _

/-- **A range is refused for a number or for an operator only.** -/
theorem alternatives_staysIn : StaysIn RangeFault Reader.alternatives := by
  have hbars : StaysIn SeparatedFault bars := bars_staysIn shifts_separatedFault
  refine .map _ (sepBy1_staysIn hbars segment_staysIn fun hread => ?_)
  obtain ⟨u, hsplit, hu, -⟩ := bars_sound hread
  obtain rfl := List.append_cancel_right hsplit
  exact hu.avoids_isOperatorChar_reverse

end Reader
end SemanticVersioning
