import SemanticVersioning.Proofs.Range.OperandText

/-!
# Where operands stand in a range text

The components of an operand, with the letter in front of them if it stands next to them, are a *run*
of characters of one class (`isExtentChar`, `WritesRun`). What stands between the operands of a range
text has no such characters, but for the hyphens of pairs and for letters with blanks after them, and
these do not make a run.

A run is found in a text by what stands around it: it `Occurs` where the characters next to it are of
other classes. If a text is put together from two, and no run goes on from one to the other, then a
run occurs in the whole exactly if it occurs in one of the parts (`Occurs.append_cases`,
`Occurs.append_left`, `Occurs.append_right`).
-/

namespace SemanticVersioning

open Reader Text

variable {x t r before after : List Char} {e e' : Extent}

/-! ## Characters of runs -/

namespace Text

theorem eq_nil_of_avoids {p : Char → Bool} {s : List Char} (hall : ∀ c ∈ s, p c = true)
    (h : Avoids p s) : s = [] := by
  cases s with
  | nil => rfl
  | cons c s =>
    have hfalse := hall c List.mem_cons_self
    rw [avoids_cons_iff.1 h] at hfalse
    exact nomatch hfalse

theorem avoids_of_forall {p : Char → Bool} {s : List Char} (h : ∀ c ∈ s, p c = false) :
    Avoids p s :=
  fun c hc => h c (List.mem_of_mem_head? hc)

/-- The last part of a text, if it is not empty, decides whether the text ends in a class. -/
theorem Avoids.of_append_reverse {p : Char → Bool} {s t : List Char}
    (h : Avoids p (s ++ t).reverse) : Avoids p t.reverse := by
  rw [List.reverse_append] at h
  exact h.of_append

end Text

theorem isExtentChar_of_isMark {c : Char} (h : isMark c = true) : isExtentChar c = true :=
  isExtentChar_of_isOperandStart (by simp only [isOperandStart, h, Bool.true_or])

theorem isExtentChar_apart_isLayout : Apart isExtentChar isLayout :=
  isExtentChar_apart_isBlank.mono (fun _ hc => hc) fun _ => isBlank_of_isLayout

theorem not_isExtentChar_of_blanks {blanks : List Char}
    (h : ∀ c ∈ blanks, isInlineSpace c = true) : ∀ c ∈ blanks, isExtentChar c = false :=
  fun c hc => isExtentChar_apart_isLayout.symm c (isLayout_of_isInlineSpace (h c hc))

theorem not_isOperandStart_of_blanks {blanks : List Char}
    (h : ∀ c ∈ blanks, isInlineSpace c = true) : ∀ c ∈ blanks, isOperandStart c = false :=
  fun c hc => isOperandStart_apart_isInlineSpace.symm c (h c hc)

theorem not_isExtentChar_of_isOperatorChar {s : List Char}
    (h : ∀ c ∈ s, isOperatorChar c = true) : ∀ c ∈ s, isExtentChar c = false := by
  have hapart : Apart isOperatorChar isExtentChar := by
    refine apart_of_all ['<', '>', '=', '!'] (fun c hc => ?_) (by decide)
    simpa [isOperatorChar, or_assoc] using hc
  exact fun c hc => hapart c (h c hc)

theorem not_isOperandStart_of_forall {s : List Char} (h : ∀ c ∈ s, isExtentChar c = false) :
    ∀ c ∈ s, isOperandStart c = false := by
  intro c hc
  refine Bool.eq_false_iff.2 fun hstart => Bool.false_ne_true ?_
  exact (h c hc).symm.trans (isExtentChar_of_isOperandStart hstart)

/-- No operand begins between the operands of a hyphenated pair, and no run goes on there. -/
theorem hyphen_between {u w : List Char} (hu : IsLayoutRun u) (hw : IsLayoutRun w) :
    (∀ c ∈ u ++ '-' :: w, isOperandStart c = false) ∧
      Avoids isExtentChar (u ++ '-' :: w).reverse := by
  have hlayout : ∀ c, isLayout c = true → isOperandStart c = false :=
    isTermStart_apart_isLayout.symm.mono (fun _ hc => hc) fun _ => isTermStart_of_isOperandStart
  constructor
  · rw [List.forall_mem_append, List.forall_mem_cons]
    exact ⟨fun c hc => hlayout c (hu.2 c hc), by decide, fun c hc => hlayout c (hw.2 c hc)⟩
  · have hend : Avoids isExtentChar (u ++ ['-'] ++ w).reverse :=
      avoids_reverse_append (fun hnil => absurd hnil hw.1) fun c hc =>
        isExtentChar_apart_isLayout.symm c (hw.2 c hc)
    rwa [List.append_assoc] at hend

/-! ## Runs -/

/-- No text has two extents. -/
theorem WritesExtent.unique {e e' : Extent} (h : WritesExtent t e) (h' : WritesExtent t e') :
    e = e' := by
  have hread := operand_complete (.bare h) (avoids_nil _)
  have hread' := operand_complete (.bare h') (avoids_nil _)
  exact congrArg Operand.extent (Outcome.read.inj (hread.symm.trans hread')).1

/-- A text that writes components, with a letter directly in front of them or without one. -/
inductive WritesRun : List Char → Extent → Prop
  | unmarked {t : List Char} {e : Extent} : WritesExtent t e → WritesRun t e
  | marked {m : Char} {t : List Char} {e : Extent} :
      isMark m = true → WritesExtent t e → WritesRun (m :: t) e

namespace WritesRun

theorem forall_isExtentChar (h : WritesRun x e) : ∀ c ∈ x, isExtentChar c = true := by
  cases h with
  | unmarked ht => exact ht.isExtentChar
  | marked hm ht =>
    rw [List.forall_mem_cons]
    exact ⟨isExtentChar_of_isMark hm, ht.isExtentChar⟩

theorem exists_first (h : WritesRun x e) : ∃ c r, x = c :: r ∧ isOperandStart c = true := by
  cases h with
  | unmarked ht =>
    obtain ⟨c, r, rfl, hc⟩ := ht.exists_first
    exact ⟨c, r, rfl, isOperandStart_of_isComponentStart hc⟩
  | @marked m t _ hm _ => exact ⟨m, t, rfl, by simp [isOperandStart, hm]⟩

/-- Nothing is stripped from a run. -/
theorem tight (h : WritesRun x e) : Tight x := by
  refine .of_forall ?_ fun c hc => isExtentChar_apart_isBlank c (h.forall_isExtentChar c hc)
  obtain ⟨c, r, rfl, -⟩ := h.exists_first
  exact List.cons_ne_nil c r

/-- A letter alone is no run. -/
theorem not_mark {m : Char} (h : WritesRun [m] e) : isMark m = false := by
  generalize hx : [m] = x at h
  cases h with
  | unmarked ht =>
    obtain ⟨c, r, rfl, hc⟩ := ht.exists_first
    obtain ⟨rfl, -⟩ := List.cons.inj hx
    exact isComponentStart_apart_isMark _ hc
  | marked _ ht =>
    obtain ⟨c, r, rfl, -⟩ := ht.exists_first
    simp at hx

end WritesRun

/-! ## Where runs stand -/

/-- Where a run stands in a text, if it goes on neither before nor after that place. -/
structure Occurs (x t before after : List Char) : Prop where
  eq : t = before ++ (x ++ after)
  avoids_before : Avoids isExtentChar before.reverse
  avoids_after : Avoids isExtentChar after

namespace Occurs

/-- A run stands in one of two texts, if no run goes on from one to the other. -/
theorem append_cases (hx : WritesRun x e) (h : Occurs x (t ++ r) before after)
    (hgap : Avoids isExtentChar t.reverse ∨ Avoids isExtentChar r) :
    (∃ mid, Occurs x t before mid ∧ after = mid ++ r) ∨
      ∃ mid, Occurs x r mid after ∧ before = t ++ mid := by
  obtain ⟨heq, hbefore, hafter⟩ := h
  rcases List.append_eq_append_iff.1 heq with ⟨m, rfl, rfl⟩ | ⟨m, rfl, hm⟩
  · exact Or.inr ⟨m, ⟨rfl, hbefore.of_append_reverse, hafter⟩, rfl⟩
  rcases List.append_eq_append_iff.1 hm with ⟨n, rfl, rfl⟩ | ⟨n, rfl, rfl⟩
  · exact Or.inl ⟨n, ⟨rfl, hbefore, hafter.of_append⟩, rfl⟩
  · -- the run would go on from one text to the other, unless one of its parts is empty
    have hchars := List.forall_mem_append.1 hx.forall_isExtentChar
    rcases hgap with hgap | hgap
    · obtain rfl : m = [] := by
        rw [← List.reverse_eq_nil_iff]
        exact eq_nil_of_avoids (fun c hc => hchars.1 c (List.mem_reverse.1 hc))
          hgap.of_append_reverse
      exact Or.inr ⟨[], ⟨rfl, avoids_nil _, hafter⟩, by simp⟩
    · obtain rfl : n = [] := eq_nil_of_avoids hchars.2 hgap.of_append
      exact Or.inl ⟨[], ⟨by simp, hbefore, avoids_nil _⟩, rfl⟩

/-- In a text of characters of runs alone, a run is the whole text. -/
theorem eq_of_forall (h : Occurs x t before after) (ht : ∀ c ∈ t, isExtentChar c = true) :
    before = [] ∧ after = [] ∧ t = x := by
  obtain ⟨rfl, hbefore, hafter⟩ := h
  rw [List.forall_mem_append, List.forall_mem_append] at ht
  obtain rfl : after = [] := eq_nil_of_avoids ht.2.2 hafter
  obtain rfl : before = [] := by
    rw [← List.reverse_eq_nil_iff]
    exact eq_nil_of_avoids (fun c hc => ht.1 c (List.mem_reverse.1 hc)) hbefore
  exact ⟨rfl, rfl, by simp⟩

/-- No run stands where no character begins an operand. -/
theorem not_of_forall (hx : WritesRun x e) (h : Occurs x t before after)
    (ht : ∀ c ∈ t, isOperandStart c = false) : False := by
  obtain ⟨c, r, rfl, hc⟩ := hx.exists_first
  rw [ht c (by rw [h.eq]; simp)] at hc
  exact nomatch hc

/-- What stands in front of an operand, and goes on neither as one nor in one, is passed by. -/
theorem exists_append (hx : WritesRun x e) (h : Occurs x (t ++ r) before after)
    (ht : ∀ c ∈ t, isOperandStart c = false) (hgap : Avoids isExtentChar t.reverse) :
    ∃ mid, Occurs x r mid after ∧ before = t ++ mid := by
  rcases h.append_cases hx (Or.inl hgap) with ⟨mid, hfirst, -⟩ | hsecond
  · exact (hfirst.not_of_forall hx ht).elim
  · exact hsecond

/-- In particular a text without characters of runs is passed by. -/
theorem exists_append_of_forall (hx : WritesRun x e) (h : Occurs x (t ++ r) before after)
    (ht : ∀ c ∈ t, isExtentChar c = false) : ∃ mid, Occurs x r mid after ∧ before = t ++ mid :=
  h.exists_append hx (not_isOperandStart_of_forall ht) (avoids_reverse ht)

/-- No run stands in a letter with nothing but blanks after it. -/
theorem not_of_mark {m : Char} {blanks : List Char} (hx : WritesRun x e)
    (h : Occurs x (m :: blanks) before after) (hm : isMark m = true)
    (hblanks : ∀ c ∈ blanks, isInlineSpace c = true) : False := by
  have hgap : Avoids isExtentChar blanks :=
    avoids_of_forall (not_isExtentChar_of_blanks hblanks)
  rcases append_cases (t := [m]) hx h (Or.inr hgap) with ⟨mid, hmark, -⟩ | ⟨mid, hrest, -⟩
  · obtain ⟨-, -, rfl⟩ := hmark.eq_of_forall (by simpa using isExtentChar_of_isMark hm)
    exact Bool.false_ne_true (hx.not_mark.symm.trans hm)
  · exact hrest.not_of_forall hx (not_isOperandStart_of_blanks hblanks)

theorem append_left (h : Occurs x t before after) (hr : Avoids isExtentChar r) :
    Occurs x (t ++ r) before (after ++ r) where
  eq := by simp [h.eq]
  avoids_before := h.avoids_before
  avoids_after := h.avoids_after.append hr

theorem append_right (h : Occurs x r before after) (ht : Avoids isExtentChar t.reverse) :
    Occurs x (t ++ r) (t ++ before) after where
  eq := by simp [h.eq]
  avoids_before := by
    rw [List.reverse_append]
    exact h.avoids_before.append ht
  avoids_after := h.avoids_after

end Occurs

end SemanticVersioning
