import SemanticVersioning.Proofs.Range.Term

/-!
# The notation of ranges

A segment is a list of terms with layout between them, or nothing (`WritesSegment`). A range is a
list of segments with bars between them, and the bars may have layout on both sides
(`WritesAlternatives`).

## Layout in front of bars

The layout after the last term of a segment belongs to the bars that follow, but the reader of
segments comes first. It takes the layout, looks for one more term, finds bars, and gives the layout
back, since the list ends in front of a separator after which no item is read. `SegmentEnd` is what
may follow a segment: bars or the end of the text, with layout in front.
-/

namespace SemanticVersioning

open Reader Text

/-! ## Segments -/

/-- A text that writes the terms of one alternative. -/
def WritesSegment : List Char → List (Term Operand) → Prop :=
  Optionally (Separated IsLayoutRun WritesTerm)

/-- What may follow a segment: bars or the end of the text, after any layout. -/
inductive SegmentEnd : List Char → Prop
  | bars {u : List Char} (s : List Char) :
      (∀ c ∈ u, isLayout c = true) → SegmentEnd (u ++ '|' :: '|' :: s)
  | endOfText {u : List Char} : (∀ c ∈ u, isLayout c = true) → SegmentEnd u

theorem SegmentEnd.dropWhile_eq {rest : List Char} (h : SegmentEnd rest) :
    rest.dropWhile isLayout = [] ∨ ∃ s, rest.dropWhile isLayout = '|' :: '|' :: s := by
  cases h with
  | bars s hu =>
    refine Or.inr ⟨s, ?_⟩
    rw [dropWhile_append_eq hu, Avoids.dropWhile_eq (avoids_cons_iff.2 (by decide))]
  | endOfText hu =>
    have h := dropWhile_append_eq hu []
    rw [List.append_nil] at h
    exact Or.inl h

/-- No term begins after the layout at the end of a segment. -/
theorem SegmentEnd.avoids {rest : List Char} (h : SegmentEnd rest) {p : Char → Bool}
    (hp : p '|' = false) : Avoids p (rest.dropWhile isLayout) := by
  rcases h.dropWhile_eq with hnil | ⟨s, hbars⟩
  · rw [hnil]
    exact avoids_nil p
  · rw [hbars]
    exact avoids_cons_iff.2 hp

theorem SegmentEnd.termEnd {rest : List Char} (h : SegmentEnd rest) : TermEnd rest := by
  refine ⟨?_, h.avoids (by decide)⟩
  cases h with
  | @bars u s hu =>
    cases u with
    | nil => exact .bars s
    | cons c u => exact .layout (hu c (by simp))
  | endOfText hu =>
    cases rest with
    | nil => exact .endOfText
    | cons c u => exact .layout (hu c (by simp))

/-- A list of terms is written without the layout in front of it too. -/
theorem terms_exists_tight {t : List Char} {ts : List (Term Operand)}
    (h : Separated IsLayoutRun WritesTerm t ts) :
    ∃ c r, (∀ rest, (t ++ rest).dropWhile isLayout = c :: r ++ rest) ∧ isTermStart c = true ∧
      Separated IsLayoutRun WritesTerm (c :: r) ts := by
  have hskip : ∀ {blanks : List Char} {c : Char} (s : List Char),
      (∀ c ∈ blanks, isInlineSpace c = true) → isTermStart c = true →
        (blanks ++ c :: s).dropWhile isLayout = c :: s := by
    intro blanks c s hblanks hc
    rw [dropWhile_append_eq fun c hc => isLayout_of_isInlineSpace (hblanks c hc)]
    exact Avoids.dropWhile_eq (avoids_cons_iff.2 (isTermStart_apart_isLayout c hc))
  cases h with
  | @single t x ht =>
    obtain ⟨blanks, c, r, rfl, hblanks, hc, ht'⟩ := ht.exists_tight
    refine ⟨c, r, fun rest => ?_, hc, .single ht'⟩
    rw [List.append_assoc, List.cons_append, hskip _ hblanks hc]
  | @cons t u r x ts ht hu hr =>
    obtain ⟨blanks, c, q, rfl, hblanks, hc, ht'⟩ := ht.exists_tight
    refine ⟨c, q ++ (u ++ r), fun rest => ?_, hc, .cons ht' hu hr⟩
    rw [List.append_assoc, List.append_assoc, List.cons_append, hskip _ hblanks hc]
    simp only [List.cons_append, List.append_assoc]

theorem isTermStart_apart_hyphen : Apart isTermStart (· == '-') :=
  (apart_of_all ['-'] (fun c hc => by simpa using hc) (by decide)).symm

theorem IsLayoutRun.atBoundary {u : List Char} (h : IsLayoutRun u) (s : List Char) :
    AtBoundary (u ++ s) := by
  obtain ⟨hne, hall⟩ := h
  cases u with
  | nil => exact absurd rfl hne
  | cons c u => exact .layout (hall c (by simp))

/-- The separator between terms takes all the layout there is. -/
private theorem layout_eq_read_imp {s mid : List Char} (h : layout s = .read () mid) :
    ∃ u, s = u ++ mid ∧ IsLayoutRun u ∧ Avoids isLayout mid :=
  layout_eq_read_iff.1 h

/-- **What is read as a segment writes it**, where no layout stands in front. -/
theorem segment_sound {s rest : List Char} {ts : List (Term Operand)} (hs : Avoids isLayout s)
    (h : segment s = .read ts rest) : ∃ t, s = t ++ rest ∧ WritesSegment t ts := by
  obtain ⟨x, mid, hread, hts⟩ := Outcome.andThen_eq_read_iff.1 h
  obtain ⟨rfl, rfl⟩ := Outcome.read.inj hts
  exact optional_sound (sepBy1_sound layout_eq_read_imp term_sound hs) hread

/-- **A segment is read from any text that writes it**, up to the layout in front of bars or of the
end of the text. -/
theorem segment_complete {t rest : List Char} {ts : List (Term Operand)} (ht : WritesSegment t ts)
    (hs : Avoids isLayout (t ++ rest)) (hrest : SegmentEnd rest) :
    segment (t ++ rest) = .read ts rest := by
  have hterm : Misses term (rest.dropWhile isLayout) :=
    term_misses (hrest.avoids (by decide)) (hrest.avoids (by decide))
  cases ht with
  | absent =>
    rw [List.nil_append] at hs ⊢
    rw [hs.dropWhile_eq] at hterm
    have hnone : Misses (sepBy1 layout term) rest := Misses.sepBy1 hterm
    exact Outcome.andThen_eq_read_iff.2 ⟨none, rest, hnone.optional_apply, rfl⟩
  | present ht =>
    have hend : Misses (layout >>= fun _ => term) rest := by
      rcases layout_cases rest with hmiss | hrun
      · exact hmiss.bind
      · exact .bind_of_read hrun hterm
    have hread : sepBy1 layout term (t ++ rest) = .read ts rest := by
      refine sepBy1_complete (S := IsLayoutRun) (G := WritesTerm) (p := isLayout) TermEnd
        ?_ term_complete ?_ ?_ hrest.termEnd hend ht hs
      · exact fun s hu => ⟨hu.1, layout_append hu s⟩
      · intro t as ht
        obtain ⟨c, r, hdrop, -, ht'⟩ := terms_exists_tight ht
        exact ⟨c :: r, hdrop rest, ht'⟩
      · intro u t as hu ht
        obtain ⟨c, r, hdrop, hc, -⟩ := terms_exists_tight ht
        refine ⟨hu.atBoundary _, ?_⟩
        rw [dropWhile_append_eq hu.2, hdrop]
        exact avoids_cons_iff.2 (isTermStart_apart_hyphen c hc)
    exact Outcome.andThen_eq_read_iff.2 ⟨some ts, rest, optional_apply_of_read hread, rfl⟩

/-! ## Alternatives -/

/-- The bars between two alternatives, with layout on both sides. -/
inductive IsBars : List Char → Prop
  | intro {u w : List Char} : (∀ c ∈ u, isLayout c = true) → (∀ c ∈ w, isLayout c = true) →
      IsBars (u ++ '|' :: '|' :: w)

/-- Bars have no characters but layout and the bars themselves. -/
theorem IsBars.forall_mem {p : Char → Bool} (hp : Apart isLayout p) (hbar : p '|' = false)
    {u : List Char} (h : IsBars u) : ∀ c ∈ u, p c = false := by
  cases h with
  | @intro u w hu hw =>
    simp only [List.forall_mem_append, List.forall_mem_cons]
    exact ⟨fun c hc => hp c (hu c hc), hbar, hbar, fun c hc => hp c (hw c hc)⟩

/-- A text that writes the alternatives of a range. -/
def WritesAlternatives (t : List Char) (alternatives : Alternatives Operand) : Prop :=
  Separated IsBars WritesSegment t alternatives.segments

/-- What is read as bars is bars, and takes the layout after them along. -/
theorem bars_sound {s mid : List Char} (h : bars s = .read () mid) :
    ∃ u, s = u ++ mid ∧ IsBars u ∧ Avoids isLayout mid := by
  simp only [bars, bind_eq_read_iff, charsWhile_eq_read_iff, literal_eq_read_iff, pure_apply,
    Outcome.read.injEq] at h
  obtain ⟨u, _, ⟨rfl, hu, -⟩, -, _, rfl, w, _, ⟨rfl, hw, hmid⟩, -, rfl⟩ := h
  exact ⟨u ++ '|' :: '|' :: w, by simp, .intro hu hw, hmid⟩

/-- Bars are written without the layout in front of them too. -/
theorem IsBars.exists_tight {u : List Char} (h : IsBars u) :
    ∃ u', (∀ s, (u ++ s).dropWhile isLayout = u' ++ s) ∧ IsBars u' := by
  cases h with
  | @intro u w hu hw =>
    refine ⟨'|' :: '|' :: w, fun s => ?_, .intro (u := []) (by simp) hw⟩
    have hbar : Avoids isLayout ('|' :: '|' :: w ++ s) := avoids_cons_iff.2 (by decide)
    rw [List.append_assoc, dropWhile_append_eq hu, hbar.dropWhile_eq]

theorem bars_complete {u : List Char} (s : List Char) (h : IsBars u) :
    u ≠ [] ∧ bars (u ++ s) = .read () (s.dropWhile isLayout) := by
  cases h with
  | @intro u w hu hw =>
    have hbar : Avoids isLayout ('|' :: '|' :: (w ++ s)) := avoids_cons_iff.2 (by decide)
    have hfront : charsWhile isLayout (u ++ '|' :: '|' :: w ++ s) =
        .read u ('|' :: '|' :: (w ++ s)) :=
      charsWhile_eq_read_iff.2 ⟨by simp, hu, hbar⟩
    refine ⟨by simp, ?_⟩
    simp only [bars, bind_eq_read_iff, literal_eq_read_iff, pure_apply, Outcome.read.injEq]
    refine ⟨u, _, hfront, (), w ++ s, rfl, _, _, charsWhile_apply _ _, trivial, ?_⟩
    exact dropWhile_append_eq hw s

theorem bars_misses_nil : Misses bars [] := by
  have hliteral : Misses (literal ['|', '|']) [] := literal_misses (by simp)
  exact .bind_of_read (charsWhile_apply isLayout []) hliteral.bind

/-- What follows a segment within a range. -/
theorem IsBars.segmentEnd {u : List Char} (h : IsBars u) (s : List Char) : SegmentEnd (u ++ s) := by
  cases h with
  | @intro u w hu _ =>
    rw [List.append_assoc]
    exact .bars (w ++ s) hu

/-- Alternatives are written without the layout in front of them too. -/
theorem segments_dropWhile {t : List Char} {as : List (List (Term Operand))}
    (h : Separated IsBars WritesSegment t as) :
    Separated IsBars WritesSegment (t.dropWhile isLayout) as := by
  cases h with
  | @single t ts ht =>
    cases ht with
    | absent => exact .single .absent
    | present ht =>
      obtain ⟨c, r, hdrop, -, ht'⟩ := terms_exists_tight ht
      have hdrop := hdrop []
      rw [List.append_nil, List.append_nil] at hdrop
      rw [hdrop]
      exact .single (.present ht')
  | @cons t u r ts as ht hu hr =>
    cases ht with
    | absent =>
      -- in front of an empty segment the layout is that of the bars after it
      obtain ⟨u', hdrop, hu'⟩ := hu.exists_tight
      rw [List.nil_append, hdrop, ← List.nil_append (u' ++ r)]
      exact .cons .absent hu' hr
    | present ht =>
      obtain ⟨c, q, hdrop, -, ht'⟩ := terms_exists_tight ht
      rw [hdrop]
      exact .cons (.present ht') hu hr

/-- **What is read as alternatives writes them**, where no layout stands in front. -/
theorem alternatives_sound {s rest : List Char} {alternatives : Alternatives Operand}
    (hs : Avoids isLayout s) (h : Reader.alternatives s = .read alternatives rest) :
    ∃ t, s = t ++ rest ∧ WritesAlternatives t alternatives := by
  obtain ⟨segments, mid, hread, hmk⟩ := Outcome.andThen_eq_read_iff.1 h
  obtain ⟨rfl, rfl⟩ := Outcome.read.inj hmk
  exact sepBy1_sound bars_sound segment_sound hs hread

/-- **Alternatives are read from any text that writes them**, where no layout stands in front. -/
theorem alternatives_complete {t : List Char} {alternatives : Alternatives Operand}
    (ht : WritesAlternatives t alternatives) (hs : Avoids isLayout t) :
    Reader.alternatives t = .read alternatives [] := by
  have hread : sepBy1 bars segment (t ++ []) = .read alternatives.segments [] := by
    refine sepBy1_complete (S := IsBars) (G := WritesSegment) (p := isLayout) SegmentEnd
      bars_complete segment_complete ?_ ?_ (.endOfText (by simp)) bars_misses_nil.bind ht ?_
    · intro t as ht
      exact ⟨t.dropWhile isLayout, by simp, segments_dropWhile ht⟩
    · intro u t as hu _
      exact hu.segmentEnd _
    · rwa [List.append_nil]
  rw [List.append_nil] at hread
  exact Outcome.andThen_eq_read_iff.2 ⟨alternatives.segments, [], hread, rfl⟩

end SemanticVersioning
