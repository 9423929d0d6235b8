import SemanticVersioning.Proofs.Reader.Exactness
import SemanticVersioning.Text.Blank

/-!
# Texts without outer blanks

A text with no blank at either end is its own body (`Tight.trim_eq`). A text of pieces has the first
character of its first piece and the last one of its last piece, so what stands between the pieces
does not matter (`Tight.append`, `tight_intercalate`).

The characters of the notations are ASCII, and the blanks among the ASCII characters stand in front
of all others (`toNat_of_isBlank`).
-/

namespace SemanticVersioning

open Text

namespace Text

theorem trim_eq_self {s : List Char} (hfirst : Avoids isBlank s)
    (hlast : Avoids isBlank s.reverse) : trim s = s := by
  have hend : trimEnd s = s := by
    rw [trimEnd, hlast.dropWhile_eq, List.reverse_reverse]
  rw [trim, hend, hfirst.dropWhile_eq]

/-- A text of at least one character that has no blank at either end. -/
structure Tight (s : List Char) : Prop where
  ne_nil : s ≠ []
  first : Avoids isBlank s
  last : Avoids isBlank s.reverse

namespace Tight

variable {s t : List Char}

theorem trim_eq (h : Tight s) : trim s = s :=
  trim_eq_self h.first h.last

theorem of_forall (hne : s ≠ []) (h : ∀ c ∈ s, isBlank c = false) : Tight s where
  ne_nil := hne
  first c hc := h c (List.mem_of_mem_head? hc)
  last c hc := h c (List.mem_reverse.1 (List.mem_of_mem_head? hc))

/-- Between two tight texts anything may stand. -/
theorem append (hs : Tight s) (ht : Tight t) (u : List Char) : Tight (s ++ (u ++ t)) where
  ne_nil := by simp [hs.ne_nil]
  first := hs.first.append_of_ne_nil hs.ne_nil _
  last := by
    rw [List.reverse_append, List.reverse_append, List.append_assoc]
    exact ht.last.append_of_ne_nil (mt List.reverse_eq_nil_iff.1 ht.ne_nil) _

end Tight

/-- The body of a text stands in the text. -/
theorem trim_isInfix (s : List Char) : trim s <:+: s :=
  ⟨leadingBlanks s, trailingBlanks s, leadingBlanks_append_trim_append_trailingBlanks s⟩

theorem tight_intercalate (sep : List Char) {ts : List (List Char)} (hne : ts ≠ [])
    (h : ∀ t ∈ ts, Tight t) : Tight (sep.intercalate ts) := by
  induction ts with
  | nil => exact absurd rfl hne
  | cons t ts ih =>
    cases ts with
    | nil =>
      rw [List.intercalate_singleton]
      exact h t (by simp)
    | cons u ts =>
      rw [List.intercalate_cons_cons, List.append_assoc]
      exact (h t (by simp)).append (ih (by simp) fun v hv => h v (List.mem_cons_of_mem t hv)) sep

end Text

/-! ## The outer blanks of texts put together -/

namespace Text

theorem isBlank_of_mem_trailingBlanks {s : List Char} : ∀ c ∈ trailingBlanks s, isBlank c = true :=
  fun c hc => List.all_eq_true.1 List.all_takeWhile c (List.mem_reverse.1 hc)

theorem isBlank_of_mem_leadingBlanks {s : List Char} : ∀ c ∈ leadingBlanks s, isBlank c = true :=
  fun c hc => List.all_eq_true.1 List.all_takeWhile c hc

theorem tight_trim {s : List Char} (h : trim s ≠ []) : Tight (trim s) where
  ne_nil := h
  first := avoids_dropWhile isBlank (trimEnd s)
  last := by
    have hend : Avoids isBlank (trimEnd s).reverse := by
      rw [trimEnd, List.reverse_reverse]
      exact avoids_dropWhile isBlank s.reverse
    rw [← leadingBlanks_append_trim, List.reverse_append] at hend
    exact hend.of_append

theorem isBlank_of_trim_eq_nil {s : List Char} (h : trim s = []) : ∀ c ∈ s, isBlank c = true := by
  rw [← leadingBlanks_append_trim_append_trailingBlanks s, h, List.append_nil,
    List.forall_mem_append]
  exact ⟨isBlank_of_mem_leadingBlanks, isBlank_of_mem_trailingBlanks⟩

/-- Without the blanks in front a text is its body and the blanks after it. A text of blanks alone
has a body of no characters, and its blanks are gone. -/
theorem exists_dropWhile_isBlank (s : List Char) :
    ∃ w, s.dropWhile isBlank = trim s ++ w ∧ ∀ c ∈ w, c ∈ trailingBlanks s := by
  have hdrop : s.dropWhile isBlank = (trimEnd s ++ trailingBlanks s).dropWhile isBlank := by
    rw [trimEnd_append_trailingBlanks]
  by_cases hbody : trim s = []
  · have hblank := dropWhile_append_eq (isBlank_of_trim_eq_nil hbody) []
    rw [List.append_nil] at hblank
    exact ⟨[], by rw [hblank, hbody]; rfl, by simp⟩
  · refine ⟨trailingBlanks s, ?_, fun c hc => hc⟩
    rw [hdrop, dropWhile_append_of_ne_nil hbody]
    rfl

theorem trimEnd_append_of_isBlank {w : List Char} (hw : ∀ c ∈ w, isBlank c = true)
    (s : List Char) : trimEnd (s ++ w) = trimEnd s := by
  rw [trimEnd, List.reverse_append,
    dropWhile_append_eq fun c hc => hw c (List.mem_reverse.1 hc)]
  rfl

/-- Blanks at the end of a text are none of its body. -/
theorem trim_append_of_isBlank {w : List Char} (hw : ∀ c ∈ w, isBlank c = true) (s : List Char) :
    trim (s ++ w) = trim s := by
  rw [trim, trimEnd_append_of_isBlank hw]
  rfl

/-- The blanks may be stripped from the end and from the front in either order. -/
theorem trimEnd_dropWhile_isBlank (s : List Char) : trimEnd (s.dropWhile isBlank) = trim s := by
  obtain ⟨w, hdrop, hw⟩ := exists_dropWhile_isBlank s
  rw [hdrop, trimEnd_append_of_isBlank fun c hc => isBlank_of_mem_trailingBlanks c (hw c hc)]
  by_cases hbody : trim s = []
  · rw [hbody]
    rfl
  · rw [trimEnd, (tight_trim hbody).last.dropWhile_eq, List.reverse_reverse]

/-- Blanks in front of a text are none of its body. -/
theorem trim_append_of_isBlank_left {u : List Char} (hu : ∀ c ∈ u, isBlank c = true)
    (s : List Char) : trim (u ++ s) = trim s := by
  rw [← trimEnd_dropWhile_isBlank, dropWhile_append_eq hu, trimEnd_dropWhile_isBlank]

/-- Around a tight text, blanks are stripped from the outer ends alone. -/
theorem trim_append_of_tight {m : List Char} (hm : Tight m) (s t : List Char) :
    trim (s ++ (m ++ t)) = s.dropWhile isBlank ++ (m ++ trimEnd t) := by
  have hlast : Avoids isBlank (m.reverse ++ s.reverse) :=
    hm.last.append_of_ne_nil (by simpa using hm.ne_nil) s.reverse
  have hend : trimEnd (s ++ (m ++ t)) = s ++ (m ++ trimEnd t) := by
    have hrev : (s ++ (m ++ t)).reverse = t.reverse ++ (m.reverse ++ s.reverse) := by simp
    rw [trimEnd, hrev, hlast.dropWhile_append]
    simp [trimEnd]
  rw [trim, hend, (hm.first.append_of_ne_nil hm.ne_nil _).dropWhile_append]

/-- The body of two texts with blanks between them, if both have a body. -/
theorem trim_append_blanks_append {s u t : List Char} (hs : trim s ≠ []) (ht : trim t ≠ []) :
    trim (s ++ (u ++ t)) = trim s ++ (trailingBlanks s ++ (u ++ leadingBlanks t) ++ trim t) := by
  have hbody := (tight_trim hs).append (tight_trim ht) (trailingBlanks s ++ (u ++ leadingBlanks t))
  have hwhole : s ++ (u ++ t) = leadingBlanks s ++
      (trim s ++ (trailingBlanks s ++ (u ++ leadingBlanks t) ++ trim t) ++ trailingBlanks t) := by
    calc s ++ (u ++ t)
        = (leadingBlanks s ++ trim s ++ trailingBlanks s) ++
            (u ++ (leadingBlanks t ++ trim t ++ trailingBlanks t)) := by
          rw [leadingBlanks_append_trim_append_trailingBlanks,
            leadingBlanks_append_trim_append_trailingBlanks]
      _ = _ := by simp only [List.append_assoc]
  rw [hwhole, trim_append_of_isBlank_left isBlank_of_mem_leadingBlanks,
    trim_append_of_isBlank isBlank_of_mem_trailingBlanks, hbody.trim_eq]

end Text

/-! ## Where blanks stand among the characters -/

theorem toNat_of_isAlpha {c : Char} (h : c.isAlpha = true) : 65 ≤ c.toNat ∧ c.toNat ≤ 122 := by
  rcases Bool.or_eq_true_iff.1 h with hupper | hlower
  · obtain ⟨hlow, hhigh⟩ := of_decide_eq_true hupper
    have hc : 65 ≤ c.toNat ∧ c.toNat ≤ 90 :=
      ⟨UInt32.le_iff_toNat_le.1 hlow, UInt32.le_iff_toNat_le.1 hhigh⟩
    omega
  · obtain ⟨hlow, hhigh⟩ := Bool.and_eq_true_iff.1 hlower
    have hc : 97 ≤ c.toNat ∧ c.toNat ≤ 122 :=
      ⟨UInt32.le_iff_toNat_le.1 (of_decide_eq_true hlow),
        UInt32.le_iff_toNat_le.1 (of_decide_eq_true hhigh)⟩
    omega

theorem toNat_of_isAlphanum {c : Char} (h : c.isAlphanum = true) :
    48 ≤ c.toNat ∧ c.toNat ≤ 122 := by
  rcases Bool.or_eq_true_iff.1 h with halpha | hdigit
  · have hc := toNat_of_isAlpha halpha
    omega
  · have hc : 48 ≤ c.toNat ∧ c.toNat ≤ 57 := Char.isDigit_iff_toNat.1 hdigit
    omega

theorem toNat_of_isBlank {c : Char} (h : isBlank c = true) : c.toNat ≤ 32 ∨ 133 ≤ c.toNat := by
  simp only [isBlank, whiteSpaceIntervals, List.any_cons, List.any_nil, Bool.or_eq_true,
    Bool.and_eq_true, decide_eq_true_eq, Bool.or_false] at h
  omega

/-- A class of characters that stand after the blanks of one byte and before all others. -/
theorem apart_isBlank {p : Char → Bool}
    (h : ∀ c, p c = true → 32 < c.toNat ∧ c.toNat < 133) : Apart p isBlank := by
  intro c hc
  refine Bool.eq_false_iff.2 fun hblank => ?_
  have hchar := h c hc
  have hspace := toNat_of_isBlank hblank
  omega

end SemanticVersioning
