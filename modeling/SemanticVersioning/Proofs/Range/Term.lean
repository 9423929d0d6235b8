import SemanticVersioning.Proofs.Range.Operand

/-!
# The notation of terms

A term has five forms (`WritesTerm`). The reader tries them in turn, and the first form that reads
and then finds a boundary wins. `term_sound` and `term_complete` say that it finds the term that is
written, and all of it.

## Why no commitment is wrong

An operand that is a term by itself is also the beginning of a hyphenated pair, so the hyphenated
form is tried on it and reads the operand. It goes on only if layout and then a hyphen follow, and
no term begins with a hyphen; hence `TermEnd`, what the text after a term looks like. Each of the
other forms begins with a character that begins no operand.

Blanks in front of an operand are skipped by whatever stands before it. A term is therefore read
where no blank stands, and `WritesTerm.exists_tight` gives the text that is left of a term when the
blanks in front of it are gone.
-/

namespace SemanticVersioning

open Reader Text

/-! ## Layout and boundaries -/

/-- The layout between two terms: one or more of space, tab, carriage return and line feed. -/
def IsLayoutRun (t : List Char) : Prop :=
  t ≠ [] ∧ ∀ c ∈ t, isLayout c = true

theorem IsLayoutRun.avoids {p : Char → Bool} {u : List Char} (hu : IsLayoutRun u)
    (hp : Apart isLayout p) (s : List Char) : Avoids p (u ++ s) := by
  obtain ⟨hne, hall⟩ := hu
  obtain ⟨c, r, rfl⟩ := List.exists_cons_of_ne_nil hne
  exact avoids_cons_iff.2 (hp c (hall c List.mem_cons_self))

theorem layout_eq_read_iff {s rest : List Char} {x : Unit} : layout s = .read x rest ↔
    ∃ t, s = t ++ rest ∧ IsLayoutRun t ∧ Avoids isLayout rest := by
  simp only [layout, bind_eq_read_iff, charsWhile1_eq_read_iff, pure_apply, Outcome.read.injEq]
  constructor
  · rintro ⟨t, _, ⟨rfl, hne, ht, hrest⟩, -, rfl⟩
    exact ⟨t, rfl, ⟨hne, ht⟩, hrest⟩
  · rintro ⟨t, rfl, ⟨hne, ht⟩, hrest⟩
    exact ⟨t, rest, ⟨rfl, hne, ht, hrest⟩, trivial, rfl⟩

/-- The layout reader takes all the layout there is. -/
theorem layout_append {t : List Char} (ht : IsLayoutRun t) (s : List Char) :
    layout (t ++ s) = .read () (s.dropWhile isLayout) := by
  refine layout_eq_read_iff.2 ⟨t ++ s.takeWhile isLayout, ?_, ⟨?_, ?_⟩, avoids_dropWhile _ _⟩
  · rw [List.append_assoc, List.takeWhile_append_dropWhile]
  · simp [ht.1]
  · intro c hc
    rcases List.mem_append.1 hc with hc | hc
    · exact ht.2 c hc
    · exact List.all_eq_true.1 List.all_takeWhile c hc

theorem layout_misses {s : List Char} (h : Avoids isLayout s) : Misses layout s :=
  (charsWhile1_misses h).bind

/-- Layout is missed, or all of it is taken. -/
theorem layout_cases (s : List Char) :
    Misses layout s ∨ layout s = .read () (s.dropWhile isLayout) := by
  cases s with
  | nil => exact Or.inl (layout_misses (avoids_nil _))
  | cons c s =>
    cases hc : isLayout c with
    | false => exact Or.inl (layout_misses (avoids_cons_iff.2 hc))
    | true =>
      rw [List.dropWhile_cons, if_pos hc]
      exact Or.inr (layout_append (t := [c]) ⟨by simp, by simpa using hc⟩ s)

/-- The places at which a term can end: in front of layout or bars, and at the end of the text. -/
inductive AtBoundary : List Char → Prop
  | layout {c : Char} {s : List Char} : isLayout c = true → AtBoundary (c :: s)
  | bars (s : List Char) : AtBoundary ('|' :: '|' :: s)
  | endOfText : AtBoundary []

theorem boundary_eq_read_iff {s rest : List Char} {x : Unit} :
    boundary s = .read x rest ↔ AtBoundary s ∧ rest = s := by
  rw [boundary, lookahead_eq_read_iff]
  refine and_congr_left fun _ => ?_
  constructor
  · rintro ⟨mid, h⟩
    rcases orElse_eq_read_iff.1 h with h | ⟨-, h⟩
    · obtain ⟨t, rfl, ⟨hne, ht⟩, -⟩ := layout_eq_read_iff.1 h
      cases t with
      | nil => exact absurd rfl hne
      | cons c t => exact .layout (ht c (by simp))
    · rcases orElse_eq_read_iff.1 h with h | ⟨-, h⟩
      · obtain rfl := literal_eq_read_iff.1 h
        exact .bars mid
      · cases s with
        | nil => exact .endOfText
        | cons c s => exact nomatch h
  · intro h
    cases h with
    | @layout c s hc =>
      exact ⟨_, orElse_apply_of_read (layout_append (t := [c]) ⟨by simp, by simpa using hc⟩ s)⟩
    | bars s => exact ⟨s, rfl⟩
    | endOfText => exact ⟨[], rfl⟩

theorem isLayout_apart_isQualifierChar : Apart isLayout isQualifierChar := by
  refine apart_of_all [' ', '\t', '\r', '\n'] (fun c hc => ?_) (by decide)
  simpa [isLayout, or_assoc] using hc

/-- Nothing that stands at a boundary continues an operand. -/
theorem AtBoundary.avoids_isQualifierChar {s : List Char} (h : AtBoundary s) :
    Avoids isQualifierChar s := by
  cases h with
  | layout hc => exact avoids_cons_iff.2 (isLayout_apart_isQualifierChar _ hc)
  | bars => exact avoids_cons_iff.2 (by decide)
  | endOfText => exact avoids_nil _

theorem bounded_eq_read_iff {p : Reader (Term Operand)} {s rest : List Char} {x : Term Operand} :
    bounded p s = .read x rest ↔ p s = .read x rest ∧ AtBoundary rest := by
  simp only [bounded, bind_eq_read_iff, boundary_eq_read_iff, pure_apply, Outcome.read.injEq]
  constructor
  · rintro ⟨_, _, hp, -, _, ⟨hrest, rfl⟩, rfl, rfl⟩
    exact ⟨hp, hrest⟩
  · rintro ⟨hp, hrest⟩
    exact ⟨x, rest, hp, (), rest, ⟨hrest, rfl⟩, rfl, rfl⟩

/-! ## Terms -/

/-- A text that writes an operator. -/
inductive WritesOperator : List Char → Operator → Prop
  | less : WritesOperator ['<'] .less
  | lessOrEqual : WritesOperator ['<', '='] .lessOrEqual
  | greater : WritesOperator ['>'] .greater
  | greaterOrEqual : WritesOperator ['>', '='] .greaterOrEqual
  | exact : WritesOperator ['='] .exact

/-- A text that writes a term, in one of its five forms. -/
inductive WritesTerm : List Char → Term Operand → Prop
  | hyphen {t u w r : List Char} {a b : Operand} :
      WritesOperand t a → IsLayoutRun u → IsLayoutRun w → WritesOperand r b →
        WritesTerm (t ++ (u ++ '-' :: (w ++ r))) (.hyphen a b)
  | compare {o blanks t : List Char} {op : Operator} {a : Operand} :
      WritesOperator o op → (∀ c ∈ blanks, isInlineSpace c = true) → WritesOperand t a →
        WritesTerm (o ++ (blanks ++ t)) (.compare op a)
  | plain {t : List Char} {a : Operand} : WritesOperand t a → WritesTerm t (.compare .exact a)
  | tilde {blanks g blanks' t : List Char} {a : Operand} :
      (∀ c ∈ blanks, isInlineSpace c = true) → (g = [] ∨ g = ['>']) →
        (∀ c ∈ blanks', isInlineSpace c = true) → WritesOperand t a →
          WritesTerm ('~' :: (blanks ++ (g ++ (blanks' ++ t)))) (.tilde a)
  | caret {blanks t : List Char} {a : Operand} :
      (∀ c ∈ blanks, isInlineSpace c = true) → WritesOperand t a →
        WritesTerm ('^' :: (blanks ++ t)) (.caret a)

/-- The characters with which a term begins. -/
def isTermStart (c : Char) : Bool :=
  isOperandStart c || isOperatorChar c || c == '~' || c == '^'

theorem operatorOfToken_eq_ok_iff {t : List Char} {op : Operator} :
    operatorOfToken t = .ok op ↔ WritesOperator t op := by
  constructor
  · intro h
    unfold operatorOfToken at h
    split at h
    · obtain rfl := Except.ok.inj h
      exact .greaterOrEqual
    · obtain rfl := Except.ok.inj h
      exact .greater
    · obtain rfl := Except.ok.inj h
      exact .exact
    · obtain rfl := Except.ok.inj h
      exact .lessOrEqual
    · obtain rfl := Except.ok.inj h
      exact .less
    · exact nomatch h
  · rintro (_ | _) <;> rfl

theorem WritesOperator.exists_first {t : List Char} {op : Operator} (h : WritesOperator t op) :
    ∃ c r, t = c :: r ∧ isOperatorChar c = true := by
  cases h <;> exact ⟨_, _, rfl, by decide⟩

theorem WritesOperator.isOperatorChar {t : List Char} {op : Operator} (h : WritesOperator t op) :
    t ≠ [] ∧ ∀ c ∈ t, isOperatorChar c = true := by
  cases h <;> exact ⟨by simp, List.all_eq_true.1 rfl⟩

theorem operator_eq_read_iff {s rest : List Char} {op : Operator} :
    operator s = .read op rest ↔
      ∃ t, s = t ++ rest ∧ WritesOperator t op ∧ Avoids isOperatorChar rest := by
  simp only [operator, checked_eq_read_iff, charsWhile1_eq_read_iff, operatorOfToken_eq_ok_iff]
  constructor
  · rintro ⟨t, ⟨rfl, -, -, hrest⟩, ht⟩
    exact ⟨t, rfl, ht, hrest⟩
  · rintro ⟨t, rfl, ht, hrest⟩
    exact ⟨t, ⟨rfl, ht.isOperatorChar.1, ht.isOperatorChar.2, hrest⟩, ht⟩

/-- Blanks, and the operand that stands after all of them. -/
private theorem spacedOperand_sound {s rest : List Char} {a : Operand}
    (h : operand (s.dropWhile isInlineSpace) = .read a rest) :
    ∃ blanks t, s = blanks ++ t ++ rest ∧ (∀ c ∈ blanks, isInlineSpace c = true) ∧
      WritesOperand t a := by
  obtain ⟨t, ht, hoperand⟩ := operand_sound (avoids_dropWhile _ s) h
  refine ⟨s.takeWhile isInlineSpace, t, ?_, List.all_eq_true.1 List.all_takeWhile, hoperand⟩
  rw [List.append_assoc, ← ht, List.takeWhile_append_dropWhile]

private theorem hyphenTerm_sound {s rest : List Char} {x : Term Operand}
    (hs : Avoids isInlineSpace s) (h : hyphenTerm s = .read x rest) :
    ∃ t, s = t ++ rest ∧ WritesTerm t x := by
  simp only [hyphenTerm, within_eq_read_iff, bind_eq_read_iff, layout_eq_read_iff,
    literal_eq_read_iff, pure_apply, Outcome.read.injEq] at h
  obtain ⟨a, _, ha, -, _, ⟨u, rfl, hu, -⟩, -, _, rfl, -, s₃, hsecond, b, _, hb, rfl, rfl⟩ := h
  obtain ⟨w, rfl, hw, hs₃⟩ := hsecond
  obtain ⟨t, rfl, ht⟩ := operand_sound hs ha
  obtain ⟨r, rfl, hr⟩ := operand_sound (hs₃.mono fun _ => isLayout_of_isInlineSpace) hb
  exact ⟨t ++ (u ++ '-' :: (w ++ r)), by simp, .hyphen ht hu hw hr⟩

private theorem comparatorTerm_sound {s rest : List Char} {x : Term Operand}
    (h : comparatorTerm s = .read x rest) : ∃ t, s = t ++ rest ∧ WritesTerm t x := by
  simp only [comparatorTerm, within_eq_read_iff, bind_eq_read_iff, inlineSpace_apply, pure_apply,
    operator_eq_read_iff, Outcome.read.injEq] at h
  obtain ⟨op, _, ⟨o, rfl, ho, -⟩, -, _, ⟨-, rfl⟩, a, _, ha, rfl, rfl⟩ := h
  obtain ⟨blanks, t, rfl, hblanks, ht⟩ := spacedOperand_sound ha
  exact ⟨o ++ (blanks ++ t), by simp, .compare ho hblanks ht⟩

private theorem plainTerm_sound {s rest : List Char} {x : Term Operand}
    (hs : Avoids isInlineSpace s) (h : plainTerm s = .read x rest) :
    ∃ t, s = t ++ rest ∧ WritesTerm t x := by
  simp only [plainTerm, within_eq_read_iff, bind_eq_read_iff, pure_apply, Outcome.read.injEq] at h
  obtain ⟨a, _, ha, rfl, rfl⟩ := h
  obtain ⟨t, rfl, ht⟩ := operand_sound hs ha
  exact ⟨t, rfl, .plain ht⟩

private theorem tildeTerm_sound {s rest : List Char} {x : Term Operand}
    (h : tildeTerm s = .read x rest) : ∃ t, s = t ++ rest ∧ WritesTerm t x := by
  simp only [tildeTerm, within_eq_read_iff, bind_eq_read_iff, inlineSpace_apply,
    literal_eq_read_iff, pure_apply, Outcome.read.injEq] at h
  obtain ⟨-, s₁, rfl, -, _, ⟨-, rfl⟩, y, s₂, hy, -, _, ⟨-, rfl⟩, a, s₃, ha, rfl, hrest⟩ := h
  obtain ⟨blanks', t, hs₂, hblanks', ht⟩ := spacedOperand_sound ha
  have hgreater : ∃ g, (g = [] ∨ g = ['>']) ∧ s₁.dropWhile isInlineSpace = g ++ s₂ := by
    rcases optional_eq_read_iff.1 hy with ⟨_, -, hg⟩ | ⟨-, -, hg⟩
    · exact ⟨['>'], Or.inr rfl, literal_eq_read_iff.1 hg⟩
    · exact ⟨[], Or.inl rfl, hg.symm⟩
  obtain ⟨g, hg, hdrop⟩ := hgreater
  subst hrest
  obtain ⟨blanks, hblanks, rfl⟩ : ∃ blanks, (∀ c ∈ blanks, isInlineSpace c = true) ∧
      s₁ = blanks ++ (g ++ (blanks' ++ t ++ s₃)) := by
    refine ⟨s₁.takeWhile isInlineSpace, List.all_eq_true.1 List.all_takeWhile, ?_⟩
    rw [← hs₂, ← hdrop, List.takeWhile_append_dropWhile]
  exact ⟨_, by simp, .tilde hblanks hg hblanks' ht⟩

private theorem caretTerm_sound {s rest : List Char} {x : Term Operand}
    (h : caretTerm s = .read x rest) : ∃ t, s = t ++ rest ∧ WritesTerm t x := by
  simp only [caretTerm, within_eq_read_iff, bind_eq_read_iff, inlineSpace_apply,
    literal_eq_read_iff, pure_apply, Outcome.read.injEq] at h
  obtain ⟨-, s₁, rfl, -, _, ⟨-, rfl⟩, a, _, ha, rfl, rfl⟩ := h
  obtain ⟨blanks, t, rfl, hblanks, ht⟩ := spacedOperand_sound ha
  exact ⟨'^' :: (blanks ++ t), by simp, .caret hblanks ht⟩

/-- **What is read as a term writes it**, where no layout stands in front. -/
theorem term_sound {s rest : List Char} {x : Term Operand} (hs : Avoids isLayout s)
    (h : term s = .read x rest) : ∃ t, s = t ++ rest ∧ WritesTerm t x := by
  have hspace : Avoids isInlineSpace s := hs.mono fun _ => isLayout_of_isInlineSpace
  rcases orElse_eq_read_iff.1 h with h | ⟨-, h⟩
  · exact hyphenTerm_sound hspace (bounded_eq_read_iff.1 h).1
  rcases orElse_eq_read_iff.1 h with h | ⟨-, h⟩
  · exact comparatorTerm_sound (bounded_eq_read_iff.1 h).1
  rcases orElse_eq_read_iff.1 h with h | ⟨-, h⟩
  · exact plainTerm_sound hspace (bounded_eq_read_iff.1 h).1
  rcases orElse_eq_read_iff.1 h with h | ⟨-, h⟩
  · exact tildeTerm_sound (bounded_eq_read_iff.1 h).1
  · exact caretTerm_sound (bounded_eq_read_iff.1 h).1

/-! ## Where terms begin and end -/

theorem isTermStart_of_isOperandStart {c : Char} (h : isOperandStart c = true) :
    isTermStart c = true := by
  simp only [isTermStart, h, Bool.true_or]

theorem isTermStart_of_isOperatorChar {c : Char} (h : isOperatorChar c = true) :
    isTermStart c = true := by
  simp only [isTermStart, h, Bool.or_true, Bool.true_or]

theorem isTermStart_apart_isLayout : Apart isTermStart isLayout := by
  refine (apart_of_all [' ', '\t', '\r', '\n'] (fun c hc => ?_) (by decide)).symm
  simpa [isLayout, or_assoc] using hc

theorem isTermStart_apart_isInlineSpace : Apart isTermStart isInlineSpace :=
  isTermStart_apart_isLayout.mono (fun _ hc => hc) fun _ => isLayout_of_isInlineSpace

theorem isOperandStart_apart_isInlineSpace : Apart isOperandStart isInlineSpace :=
  isTermStart_apart_isInlineSpace.mono (fun _ => isTermStart_of_isOperandStart) fun _ hc => hc

theorem isOperatorChar_apart_isInlineSpace : Apart isOperatorChar isInlineSpace :=
  isTermStart_apart_isInlineSpace.mono (fun _ => isTermStart_of_isOperatorChar) fun _ hc => hc

theorem isOperatorChar_apart_isOperandStart : Apart isOperatorChar isOperandStart := by
  refine apart_of_all ['<', '>', '=', '!'] (fun c hc => ?_) (by decide)
  simpa [isOperatorChar, or_assoc] using hc

/-- What may follow a term: a boundary, and no hyphen after the layout. -/
def TermEnd (rest : List Char) : Prop :=
  AtBoundary rest ∧ Avoids (· == '-') (rest.dropWhile isLayout)

theorem WritesOperand.avoids_text {p : Char → Bool} {t : List Char} {o : Operand}
    (h : WritesOperand t o) (hp : Apart isOperandStart p) (rest : List Char) :
    Avoids p (o.text.toList ++ rest) := by
  obtain ⟨c, r, htext, hc⟩ := h.exists_first
  rw [htext]
  exact avoids_cons_iff.2 (hp c hc)

/-- Blanks in front of an operand are dropped up to its own text. -/
theorem WritesOperand.dropWhile_append {p : Char → Bool} {blanks t : List Char} {o : Operand}
    (h : WritesOperand t o) (hp : ∀ c, isInlineSpace c = true → p c = true)
    (hstart : Apart isOperandStart p) (hblanks : ∀ c ∈ blanks, p c = true)
    (rest : List Char) : (blanks ++ (t ++ rest)).dropWhile p = o.text.toList ++ rest := by
  obtain ⟨inner, hinner, rfl, -⟩ := h.exists_blanks
  rw [dropWhile_append_eq hblanks, List.append_assoc,
    dropWhile_append_eq fun c hc => hp c (hinner c hc), (h.avoids_text hstart rest).dropWhile_eq]

/-- The blanks between a sign and its operand are skipped. -/
theorem WritesOperand.dropWhile_isInlineSpace {blanks t : List Char} {o : Operand}
    (h : WritesOperand t o) (hblanks : ∀ c ∈ blanks, isInlineSpace c = true) (rest : List Char) :
    (blanks ++ (t ++ rest)).dropWhile isInlineSpace = o.text.toList ++ rest :=
  h.dropWhile_append (fun _ hc => hc) isOperandStart_apart_isInlineSpace hblanks rest

/-- Neither the blanks after a sign nor the operand after them begin with another sign. -/
theorem WritesOperand.avoids_isOperatorChar {blanks t : List Char} {o : Operand}
    (h : WritesOperand t o) (hblanks : ∀ c ∈ blanks, isInlineSpace c = true) (rest : List Char) :
    Avoids isOperatorChar (blanks ++ (t ++ rest)) := by
  obtain ⟨inner, hinner, rfl, -⟩ := h.exists_blanks
  rw [List.append_assoc, ← List.append_assoc blanks]
  have hall : ∀ c ∈ blanks ++ inner, isInlineSpace c = true := by
    intro c hc
    rcases List.mem_append.1 hc with hc | hc
    · exact hblanks c hc
    · exact hinner c hc
  cases hspaces : blanks ++ inner with
  | nil => exact h.avoids_text isOperatorChar_apart_isOperandStart.symm rest
  | cons c r =>
    rw [hspaces] at hall
    exact avoids_cons_iff.2 (isOperatorChar_apart_isInlineSpace.symm c (hall c (by simp)))

/-- An operand without blanks in front is written by its own text. -/
theorem WritesOperand.eq_text {t : List Char} {o : Operand} (h : WritesOperand t o)
    {rest : List Char} (hs : Avoids isInlineSpace (t ++ rest)) : t = o.text.toList := by
  have hdrop : ([] ++ (t ++ rest)).dropWhile isInlineSpace = o.text.toList ++ rest :=
    h.dropWhile_isInlineSpace (by simp) rest
  rw [List.nil_append, hs.dropWhile_eq] at hdrop
  exact List.append_cancel_right hdrop

/-- A term is written without the blanks in front of it too, and then begins with a character of
its own. -/
theorem WritesTerm.exists_tight {t : List Char} {x : Term Operand} (h : WritesTerm t x) :
    ∃ blanks c r, t = blanks ++ c :: r ∧ (∀ c ∈ blanks, isInlineSpace c = true) ∧
      isTermStart c = true ∧ WritesTerm (c :: r) x := by
  cases h with
  | @hyphen t u w r a b ha hu hw hb =>
    obtain ⟨blanks, hblanks, rfl, ha'⟩ := ha.exists_blanks
    obtain ⟨c, q, htext, hc⟩ := ha.exists_first
    refine ⟨blanks, c, q ++ (u ++ '-' :: (w ++ r)), by simp [htext], hblanks,
      isTermStart_of_isOperandStart hc, ?_⟩
    rw [← List.cons_append, ← htext]
    exact .hyphen ha' hu hw hb
  | @compare o blanks t op a ho hblanks ha =>
    obtain ⟨c, r, rfl, hc⟩ := ho.exists_first
    exact ⟨[], c, r ++ (blanks ++ t), rfl, by simp, isTermStart_of_isOperatorChar hc,
      .compare ho hblanks ha⟩
  | @plain t a ha =>
    obtain ⟨blanks, hblanks, rfl, ha'⟩ := ha.exists_blanks
    obtain ⟨c, q, htext, hc⟩ := ha.exists_first
    rw [htext] at ha' ⊢
    exact ⟨blanks, c, q, rfl, hblanks, isTermStart_of_isOperandStart hc, .plain ha'⟩
  | tilde hblanks hg hblanks' ha =>
    exact ⟨[], '~', _, rfl, by simp, by decide, .tilde hblanks hg hblanks' ha⟩
  | caret hblanks ha => exact ⟨[], '^', _, rfl, by simp, by decide, .caret hblanks ha⟩

/-! ## Terms are read -/

/-- An operand is missed in front of a character that begins none. -/
theorem operand_misses_cons {c : Char} {s : List Char} (hstart : isOperandStart c = false)
    (hspace : isInlineSpace c = false) : Misses operand (c :: s) := by
  simp only [isOperandStart, Bool.or_eq_false_iff] at hstart
  have hs : Avoids isInlineSpace (c :: s) := avoids_cons_iff.2 hspace
  refine operand_misses (avoids_cons_iff.2 hstart.1) ?_
  rw [hs.dropWhile_eq]
  exact avoids_cons_iff.2 hstart.2

theorem operator_misses {s : List Char} (h : Avoids isOperatorChar s) : Misses operator s :=
  (charsWhile1_misses h).checked

theorem hyphenTerm_misses {s : List Char} (h : Misses operand s) : Misses hyphenTerm s :=
  h.bind.within

theorem comparatorTerm_misses {s : List Char} (h : Avoids isOperatorChar s) :
    Misses comparatorTerm s :=
  (operator_misses h).bind.within

private theorem plainTerm_misses {s : List Char} (h : Misses operand s) : Misses plainTerm s :=
  h.bind.within

theorem tildeTerm_misses {s : List Char} (h : Avoids (· == '~') s) : Misses tildeTerm s :=
  (literal_singleton_misses h).bind.within

private theorem caretTerm_misses {s : List Char} (h : Avoids (· == '^') s) : Misses caretTerm s :=
  (literal_singleton_misses h).bind.within

theorem bounded_misses {p : Reader (Term Operand)} {s : List Char} (h : Misses p s) :
    Misses (bounded p) s :=
  h.bind

/-- A pair is missed after an operand that no hyphen follows. -/
theorem hyphenTerm_misses_of_read {s rest : List Char} {a : Operand}
    (ha : operand s = .read a rest) (hrest : Avoids (· == '-') (rest.dropWhile isLayout)) :
    Misses hyphenTerm s := by
  refine Misses.within (.bind_of_read ha ?_)
  rcases layout_cases rest with hmiss | hrun
  · exact hmiss.bind
  · exact .bind_of_read hrun (literal_singleton_misses hrest).bind

private theorem hyphenTerm_complete {t u w r rest : List Char} {a b : Operand}
    (ha : WritesOperand t a) (hu : IsLayoutRun u) (hw : IsLayoutRun w) (hb : WritesOperand r b)
    (hrest : Avoids isQualifierChar rest) :
    hyphenTerm (a.text.toList ++ (u ++ '-' :: (w ++ (r ++ rest)))) =
      .read (.hyphen a b) rest := by
  obtain ⟨c, u, rfl⟩ : ∃ c u', u = c :: u' := List.exists_cons_of_ne_nil hu.1
  have hc : isLayout c = true := hu.2 c (by simp)
  have hlower : operand (a.text.toList ++ (c :: u ++ '-' :: (w ++ (r ++ rest)))) =
      .read a (c :: u ++ '-' :: (w ++ (r ++ rest))) := operand_complete ha
    (avoids_cons_iff.2 (isLayout_apart_isQualifierChar c hc))
  have hdash : Avoids isLayout ('-' :: (w ++ (r ++ rest))) := avoids_cons_iff.2 (by decide)
  have hdrop : (w ++ (r ++ rest)).dropWhile isLayout = b.text.toList ++ rest :=
    hb.dropWhile_append (fun _ => isLayout_of_isInlineSpace)
      (isTermStart_apart_isLayout.mono (fun _ => isTermStart_of_isOperandStart) fun _ hc => hc)
      hw.2 rest
  -- the layout before the upper operand takes the blanks in front of that operand along
  have hrun := layout_append hw (r ++ rest)
  rw [← dropWhile_append_eq hw.2, hdrop] at hrun
  simp only [hyphenTerm, within_eq_read_iff, bind_eq_read_iff, literal_eq_read_iff, pure_apply,
    Outcome.read.injEq]
  exact ⟨a, _, hlower, (), _, layout_eq_read_iff.2 ⟨c :: u, rfl, hu, hdash⟩, (), _, rfl, (), _,
    hrun, b, rest, operand_complete hb hrest, rfl, rfl⟩

private theorem comparatorTerm_complete {o blanks t rest : List Char} {op : Operator} {a : Operand}
    (ho : WritesOperator o op) (hblanks : ∀ c ∈ blanks, isInlineSpace c = true)
    (ha : WritesOperand t a) (hrest : Avoids isQualifierChar rest) :
    comparatorTerm (o ++ (blanks ++ (t ++ rest))) = .read (.compare op a) rest := by
  have hdrop := ha.dropWhile_isInlineSpace hblanks rest
  simp only [comparatorTerm, within_eq_read_iff, bind_eq_read_iff, operator_eq_read_iff,
    inlineSpace_apply, pure_apply, Outcome.read.injEq]
  exact ⟨op, _, ⟨o, rfl, ho, ha.avoids_isOperatorChar hblanks rest⟩, (), _, ⟨trivial, rfl⟩, a, rest,
    by rw [hdrop]; exact operand_complete ha hrest, rfl, rfl⟩

private theorem tildeTerm_complete {blanks g blanks' t rest : List Char} {a : Operand}
    (hblanks : ∀ c ∈ blanks, isInlineSpace c = true) (hg : g = [] ∨ g = ['>'])
    (hblanks' : ∀ c ∈ blanks', isInlineSpace c = true) (ha : WritesOperand t a)
    (hrest : Avoids isQualifierChar rest) :
    tildeTerm ('~' :: (blanks ++ (g ++ (blanks' ++ (t ++ rest))))) = .read (.tilde a) rest := by
  have hoperand := operand_complete ha hrest
  have hgreater : ∃ y s, optional (literal ['>'])
      ((blanks ++ (g ++ (blanks' ++ (t ++ rest)))).dropWhile isInlineSpace) = .read y s ∧
        s.dropWhile isInlineSpace = a.text.toList ++ rest := by
    rw [dropWhile_append_eq hblanks]
    rcases hg with rfl | rfl
    · refine ⟨none, _, Misses.optional_apply (literal_singleton_misses ?_), ?_⟩
      · rw [List.nil_append, ha.dropWhile_isInlineSpace hblanks']
        refine (ha.avoids_text isOperatorChar_apart_isOperandStart.symm rest).mono ?_
        intro c hc
        rw [eq_of_beq hc]
        decide
      · -- without a sign between them the blanks are one run, and all of it has been dropped
        rw [List.nil_append, (avoids_dropWhile _ _).dropWhile_eq,
          ha.dropWhile_isInlineSpace hblanks']
    · exact ⟨some (), blanks' ++ (t ++ rest), rfl, ha.dropWhile_isInlineSpace hblanks' rest⟩
  obtain ⟨y, s, hy, hs⟩ := hgreater
  simp only [tildeTerm, within_eq_read_iff, bind_eq_read_iff, literal_eq_read_iff,
    inlineSpace_apply, pure_apply, Outcome.read.injEq]
  exact ⟨(), _, rfl, (), _, ⟨trivial, rfl⟩, y, s, hy, (), _, ⟨trivial, rfl⟩, a, rest,
    by rwa [hs], rfl, rfl⟩

private theorem caretTerm_complete {blanks t rest : List Char} {a : Operand}
    (hblanks : ∀ c ∈ blanks, isInlineSpace c = true) (ha : WritesOperand t a)
    (hrest : Avoids isQualifierChar rest) :
    caretTerm ('^' :: (blanks ++ (t ++ rest))) = .read (.caret a) rest := by
  simp only [caretTerm, within_eq_read_iff, bind_eq_read_iff, literal_eq_read_iff,
    inlineSpace_apply, pure_apply, Outcome.read.injEq]
  have hdrop := ha.dropWhile_isInlineSpace hblanks rest
  exact ⟨(), blanks ++ (t ++ rest), rfl, (), _, ⟨trivial, rfl⟩, a, rest,
    by rw [hdrop]; exact operand_complete ha hrest, rfl, rfl⟩

/-- In front of a sign that is no operator only the last two forms are left. -/
theorem term_eq_of_sign {c : Char} {s : List Char} (hstart : isOperandStart c = false)
    (hspace : isInlineSpace c = false) (hoperator : isOperatorChar c = false) :
    term (c :: s) = orElse (bounded tildeTerm) (bounded caretTerm) (c :: s) := by
  have hoperand : Misses operand (c :: s) := operand_misses_cons hstart hspace
  rw [term, (bounded_misses (hyphenTerm_misses hoperand)).orElse_apply,
    (bounded_misses (comparatorTerm_misses (avoids_cons_iff.2 hoperator))).orElse_apply,
    (bounded_misses (plainTerm_misses hoperand)).orElse_apply]

/-- **A term is read from any text that writes it**, where the text after it can follow a term. -/
theorem term_complete {t rest : List Char} {x : Term Operand} (ht : WritesTerm t x)
    (hs : Avoids isLayout (t ++ rest)) (hrest : TermEnd rest) :
    term (t ++ rest) = .read x rest := by
  have hqualifier : Avoids isQualifierChar rest := hrest.1.avoids_isQualifierChar
  have hspace : Avoids isInlineSpace (t ++ rest) := hs.mono fun _ => isLayout_of_isInlineSpace
  have hbounded : ∀ {p : Reader (Term Operand)} {s : List Char}, p s = .read x rest →
      bounded p s = .read x rest := fun hp => bounded_eq_read_iff.2 ⟨hp, hrest.1⟩
  cases ht with
  | @hyphen t u w r a b ha hu hw hb =>
    simp only [List.append_assoc, List.cons_append] at hspace ⊢
    obtain rfl := ha.eq_text hspace
    exact orElse_apply_of_read (hbounded (hyphenTerm_complete ha hu hw hb hqualifier))
  | @compare o blanks t op a ho hblanks ha =>
    simp only [List.append_assoc]
    obtain ⟨c, r, rfl, hc⟩ := ho.exists_first
    have hoperand : Misses operand (c :: r ++ (blanks ++ (t ++ rest))) :=
      operand_misses_cons (isOperatorChar_apart_isOperandStart c hc)
        (isOperatorChar_apart_isInlineSpace c hc)
    rw [term, (bounded_misses (hyphenTerm_misses hoperand)).orElse_apply]
    exact orElse_apply_of_read (hbounded (comparatorTerm_complete ho hblanks ha hqualifier))
  | @plain _ a ha =>
    -- the pair is tried first and reads the operand, but no hyphen follows
    obtain rfl := ha.eq_text hspace
    have hread := operand_complete ha hqualifier
    have hsign : Avoids isOperatorChar (a.text.toList ++ rest) :=
      ha.avoids_text isOperatorChar_apart_isOperandStart.symm rest
    have hplain : plainTerm (a.text.toList ++ rest) = .read (.compare .exact a) rest := by
      simp only [plainTerm, within_eq_read_iff, bind_eq_read_iff, pure_apply, Outcome.read.injEq]
      exact ⟨a, rest, hread, rfl, rfl⟩
    rw [term, (bounded_misses (hyphenTerm_misses_of_read hread hrest.2)).orElse_apply,
      (bounded_misses (comparatorTerm_misses hsign)).orElse_apply]
    exact orElse_apply_of_read (hbounded hplain)
  | @tilde blanks g blanks' t a hblanks hg hblanks' ha =>
    simp only [List.append_assoc, List.cons_append]
    rw [term_eq_of_sign (by decide) (by decide) (by decide)]
    exact orElse_apply_of_read (hbounded (tildeTerm_complete hblanks hg hblanks' ha hqualifier))
  | @caret blanks t a hblanks ha =>
    simp only [List.append_assoc, List.cons_append]
    have htilde : Misses tildeTerm ('^' :: (blanks ++ (t ++ rest))) :=
      tildeTerm_misses (avoids_cons_iff.2 (by decide))
    rw [term_eq_of_sign (by decide) (by decide) (by decide),
      (bounded_misses htilde).orElse_apply]
    exact hbounded (caretTerm_complete hblanks ha hqualifier)

/-- No term is read where none begins. -/
theorem term_misses {s : List Char} (hspace : Avoids isInlineSpace s) (h : Avoids isTermStart s) :
    Misses term s := by
  have hoperand : Misses operand s := by
    cases s with
    | nil => exact operand_misses (avoids_nil _) (avoids_nil _)
    | cons c s =>
      simp only [avoids_cons_iff, isTermStart, Bool.or_eq_false_iff] at h hspace
      exact operand_misses_cons h.1.1.1 hspace
  have hoperator : Avoids isOperatorChar s := h.mono fun _ => isTermStart_of_isOperatorChar
  have htilde : Avoids (· == '~') s := h.mono fun c hc => by rw [eq_of_beq hc]; decide
  have hcaret : Avoids (· == '^') s := h.mono fun c hc => by rw [eq_of_beq hc]; decide
  exact (bounded_misses (hyphenTerm_misses hoperand)).orElse
    ((bounded_misses (comparatorTerm_misses hoperator)).orElse
      ((bounded_misses (plainTerm_misses hoperand)).orElse
        ((bounded_misses (tildeTerm_misses htilde)).orElse
          (bounded_misses (caretTerm_misses hcaret)))))

end SemanticVersioning
