import SemanticVersioning.Proofs.Range.Bare
import SemanticVersioning.Proofs.Range.Runs

/-!
# Exchanging operands

A run that occurs in a range text is one of its operands, but for the letter and the blanks that may
stand in front (`WritesOperand.exists_ledBy`), and each operand of the text is such a run
(`WritesAlternatives.exists_occurs`). Another run may then be written in its place. Nothing else of the
text is read differently, since what comes before and after the run is kept from it as before. If both
runs mean the same, so do the two texts (`WritesAlternatives.exchange`,
`Range.exists_parse_exchange`).
-/

namespace SemanticVersioning

open Reader Text

variable {x x' t r before after : List Char} {e : Extent}

/-! ## Runs of the same meaning -/

/-- A run of characters that can be exchanged for another one: both write components that mean the
same, and a letter in front of them stays. -/
inductive Exchanges : List Char → List Char → Prop
  | unmarked {t t' : List Char} {e e' : Extent} :
      WritesExtent t e → WritesExtent t' e' → e'.map Version.bare = e.map Version.bare →
        Exchanges t t'
  | marked {m : Char} {t t' : List Char} {e e' : Extent} :
      isMark m = true → WritesExtent t e → WritesExtent t' e' →
        e'.map Version.bare = e.map Version.bare → Exchanges (m :: t) (m :: t')

namespace Exchanges

theorem exists_writesRun (h : Exchanges x x') : ∃ e, WritesRun x e := by
  cases h with
  | unmarked ht _ _ => exact ⟨_, .unmarked ht⟩
  | marked hm ht _ _ => exact ⟨_, .marked hm ht⟩

theorem symm (h : Exchanges x x') : Exchanges x' x := by
  cases h with
  | unmarked ht ht' hbare => exact .unmarked ht' ht hbare.symm
  | marked hm ht ht' hbare => exact .marked hm ht' ht hbare.symm

theorem tight (h : Exchanges x x') : Tight x := by
  obtain ⟨e, hx⟩ := h.exists_writesRun
  exact hx.tight

/-- Components without a letter in front are exchanged for components. -/
theorem of_extent (ht : WritesExtent t e) (h : Exchanges t x') :
    ∃ e', WritesExtent x' e' ∧ e'.map Version.bare = e.map Version.bare := by
  cases h with
  | unmarked ht₀ ht' hbare =>
    obtain rfl := ht.unique ht₀
    exact ⟨_, ht', hbare⟩
  | marked hm _ _ _ =>
    obtain ⟨c, r, heq, hc⟩ := ht.exists_first
    obtain ⟨rfl, -⟩ := List.cons.inj heq
    exact absurd (isComponentStart_apart_isMark _ hc) (by simp [hm])

/-- Components with a letter in front are exchanged for components with that letter in front. -/
theorem of_mark {m : Char} (hm : isMark m = true) (ht : WritesExtent t e)
    (h : Exchanges (m :: t) x') :
    ∃ t' e', x' = m :: t' ∧ WritesExtent t' e' ∧ e'.map Version.bare = e.map Version.bare := by
  generalize hx : m :: t = x at h
  cases h with
  | unmarked ht₀ _ _ =>
    obtain ⟨c, r, rfl, hc⟩ := ht₀.exists_first
    obtain ⟨rfl, -⟩ := List.cons.inj hx
    exact absurd (isComponentStart_apart_isMark _ hc) (by simp [hm])
  | marked _ ht₀ ht' hbare =>
    obtain ⟨rfl, rfl⟩ := List.cons.inj hx
    obtain rfl := ht.unique ht₀
    exact ⟨_, _, rfl, ht', hbare⟩

end Exchanges

/-! ## Operands -/

/-- A text and a run after it that write an operand. No run stands in the text or goes on from it, and
another run of the same meaning may stand after it. -/
structure LedBy (s x : List Char) (o : Operand) : Prop where
  run : WritesRun x o.extent
  gap : Avoids isExtentChar s.reverse
  not_occurs : ∀ {y : List Char} {e : Extent} {before after : List Char}, WritesRun y e →
    ¬ Occurs y s before after
  exchange : ∀ {x' : List Char}, Exchanges x x' →
    ∃ o', WritesOperand (s ++ x') o' ∧ o'.bare = o.bare

/-- An operand is a run, but for the blanks in front, and for the letter if blanks stand after it. -/
theorem WritesOperand.exists_ledBy {o : Operand} (h : WritesOperand t o) :
    ∃ s x, t = s ++ x ∧ LedBy s x o := by
  cases h with
  | @unmarked blanks t e hblanks ht =>
    refine ⟨blanks, t, rfl, .unmarked ht, avoids_reverse (not_isExtentChar_of_blanks hblanks),
      fun hy hoccurs => hoccurs.not_of_forall hy (not_isOperandStart_of_blanks hblanks),
      fun hx => ?_⟩
    obtain ⟨e', ht', hbare⟩ := hx.of_extent ht
    exact ⟨⟨_, e'⟩, .unmarked hblanks ht', hbare⟩
  | @marked m blanks t e hm hblanks ht =>
    by_cases hnil : blanks = []
    · subst hnil
      refine ⟨[], m :: t, rfl, .marked hm ht, avoids_nil _,
        fun hy hoccurs => hoccurs.not_of_forall hy (by simp), fun hx => ?_⟩
      obtain ⟨t', e', rfl, ht', hbare⟩ := hx.of_mark hm ht
      exact ⟨⟨_, e'⟩, @WritesOperand.marked m [] t' e' hm (by simp) ht', hbare⟩
    · refine ⟨m :: blanks, t, rfl, .unmarked ht, ?_,
        fun hy hoccurs => hoccurs.not_of_mark hy hm hblanks, fun hx => ?_⟩
      · rw [List.reverse_cons]
        exact (avoids_reverse (not_isExtentChar_of_blanks hblanks)).append_of_ne_nil
          (by simpa using hnil) [m]
      · obtain ⟨e', ht', hbare⟩ := hx.of_extent ht
        exact ⟨⟨_, e'⟩, .marked hm hblanks ht', hbare⟩

/-- **A run that occurs in an operand may be exchanged**, and the operand means the same. -/
theorem WritesOperand.exchange {o : Operand} (hx : Exchanges x x') (h : WritesOperand t o)
    (hoccurs : Occurs x t before after) :
    ∃ o', WritesOperand (before ++ (x' ++ after)) o' ∧ o'.bare = o.bare := by
  obtain ⟨s, y, rfl, hled⟩ := h.exists_ledBy
  obtain ⟨e, hrun⟩ := hx.exists_writesRun
  rcases hoccurs.append_cases hrun (Or.inl hled.gap) with ⟨mid, hfirst, -⟩ | ⟨mid, hrest, rfl⟩
  · exact absurd hfirst (hled.not_occurs hrun)
  · obtain ⟨rfl, rfl, rfl⟩ := hrest.eq_of_forall hled.run.forall_isExtentChar
    rw [List.append_nil, List.append_nil]
    exact hled.exchange hx

/-- Each operand is a run that occurs in its text. -/
theorem WritesOperand.exists_occurs {o : Operand} (h : WritesOperand t o) :
    ∃ x before after, Occurs x t before after ∧ WritesRun x o.extent := by
  obtain ⟨s, x, rfl, hled⟩ := h.exists_ledBy
  exact ⟨x, s, [], ⟨by simp, hled.gap, avoids_nil _⟩, hled.run⟩

/-- The same after a text in which no operand begins. -/
theorem WritesOperand.exchange_after {s : List Char} {o : Operand} (hx : Exchanges x x')
    (h : WritesOperand t o) (hoccurs : Occurs x (s ++ t) before after)
    (hstart : ∀ c ∈ s, isOperandStart c = false) (hgap : Avoids isExtentChar s.reverse) :
    ∃ t' o', before ++ (x' ++ after) = s ++ t' ∧ WritesOperand t' o' ∧ o'.bare = o.bare := by
  obtain ⟨e, hrun⟩ := hx.exists_writesRun
  obtain ⟨mid, hrest, rfl⟩ := hoccurs.exists_append hrun hstart hgap
  obtain ⟨o', ho', hbare⟩ := h.exchange hx hrest
  exact ⟨mid ++ (x' ++ after), o', List.append_assoc _ _ _, ho', hbare⟩

/-! ## Terms -/

/-- A term of one operand. In front of the operand no character is one of a run, and each operand of
the same meaning may stand there. -/
structure SignedBy (s r : List Char) (a : Operand) (y : Term Operand) : Prop where
  sign : ∀ c ∈ s, isExtentChar c = false
  operand : WritesOperand r a
  operands : y.operands = [a]
  exchange : ∀ {r' : List Char} {a' : Operand}, WritesOperand r' a' → a'.bare = a.bare →
    ∃ y', WritesTerm (s ++ r') y' ∧ y'.map Operand.bare = y.map Operand.bare

/-- A term has one operand with a sign in front, or two with a hyphen between them. -/
theorem WritesTerm.cases_operands {y : Term Operand} (h : WritesTerm t y) :
    (∃ s r a, t = s ++ r ∧ SignedBy s r a y) ∨
      ∃ l u w r a b, t = l ++ (u ++ '-' :: w ++ r) ∧ y = .hyphen a b ∧ WritesOperand l a ∧
        IsLayoutRun u ∧ IsLayoutRun w ∧ WritesOperand r b := by
  cases h with
  | @hyphen l u w r a b ha hu hw hb =>
    exact Or.inr ⟨l, u, w, r, a, b, by simp, rfl, ha, hu, hw, hb⟩
  | @compare o blanks r op a ho hblanks ha =>
    refine Or.inl ⟨o ++ blanks, r, a, (List.append_assoc ..).symm, ?_, ha, rfl, fun ha' hbare => ?_⟩
    · exact List.forall_mem_append.2 ⟨not_isExtentChar_of_isOperatorChar ho.isOperatorChar.2,
        not_isExtentChar_of_blanks hblanks⟩
    · refine ⟨.compare op _, ?_, congrArg (Term.compare op) hbare⟩
      rw [List.append_assoc]
      exact .compare ho hblanks ha'
  | @plain _ a ha =>
    exact Or.inl ⟨[], t, a, rfl, by simp, ha, rfl, fun ha' hbare =>
      ⟨.compare .exact _, .plain ha', congrArg (Term.compare .exact) hbare⟩⟩
  | @tilde blanks g blanks' r a hblanks hg hblanks' ha =>
    have hgreater : ∀ c ∈ g, isExtentChar c = false := by
      rcases hg with rfl | rfl
      · simp
      · exact not_isExtentChar_of_isOperatorChar (List.all_eq_true.1 rfl)
    refine Or.inl ⟨'~' :: (blanks ++ (g ++ blanks')), r, a, by simp, ?_, ha, rfl,
      fun ha' hbare => ?_⟩
    · rw [List.forall_mem_cons, List.forall_mem_append, List.forall_mem_append]
      exact ⟨by decide, not_isExtentChar_of_blanks hblanks, hgreater,
        not_isExtentChar_of_blanks hblanks'⟩
    · refine ⟨.tilde _, ?_, congrArg Term.tilde hbare⟩
      rw [List.cons_append, List.append_assoc, List.append_assoc]
      exact .tilde hblanks hg hblanks' ha'
  | @caret blanks r a hblanks ha =>
    exact Or.inl ⟨'^' :: blanks, r, a, rfl,
      List.forall_mem_cons.2 ⟨by decide, not_isExtentChar_of_blanks hblanks⟩, ha, rfl,
      fun ha' hbare => ⟨.caret _, .caret hblanks ha', congrArg Term.caret hbare⟩⟩

/-- **A run that occurs in a term may be exchanged**, and the term means the same. -/
theorem WritesTerm.exchange {y : Term Operand} (hx : Exchanges x x') (h : WritesTerm t y)
    (hoccurs : Occurs x t before after) :
    ∃ y', WritesTerm (before ++ (x' ++ after)) y' ∧ y'.map Operand.bare = y.map Operand.bare := by
  obtain ⟨e, hrun⟩ := hx.exists_writesRun
  rcases h.cases_operands with
    ⟨s, r, a, rfl, hsigned⟩ | ⟨l, u, w, r, a, b, rfl, rfl, ha, hu, hw, hb⟩
  · obtain ⟨r', a', heq, ha', hbare⟩ := hsigned.operand.exchange_after hx hoccurs
      (not_isOperandStart_of_forall hsigned.sign) (avoids_reverse hsigned.sign)
    rw [heq]
    exact hsigned.exchange ha' hbare
  · have hgap : Avoids isExtentChar (u ++ '-' :: w ++ r) := by
      rw [List.append_assoc]
      exact hu.avoids isExtentChar_apart_isLayout.symm _
    rcases hoccurs.append_cases hrun (Or.inr hgap) with ⟨mid, hlower, rfl⟩ | ⟨mid, hrest, rfl⟩
    · obtain ⟨a', ha', hbare⟩ := ha.exchange hx hlower
      refine ⟨.hyphen a' b, ?_, congrArg (Term.hyphen · b.bare) hbare⟩
      have hwrites := WritesTerm.hyphen ha' hu hw hb
      simpa only [List.append_assoc, List.cons_append] using hwrites
    · obtain ⟨hstart, hend⟩ := hyphen_between hu hw
      obtain ⟨r', b', heq, hb', hbare⟩ := hb.exchange_after hx hrest hstart hend
      refine ⟨.hyphen a b', ?_, congrArg (Term.hyphen a.bare) hbare⟩
      rw [List.append_assoc, heq, List.append_assoc, List.cons_append]
      exact .hyphen ha hu hw hb'

/-- Each operand of a term is a run that occurs in its text. -/
theorem WritesTerm.exists_occurs {y : Term Operand} {o : Operand} (h : WritesTerm t y)
    (ho : o ∈ y.operands) : ∃ x before after, Occurs x t before after ∧ WritesRun x o.extent := by
  rcases h.cases_operands with
    ⟨s, r, a, rfl, hsigned⟩ | ⟨l, u, w, r, a, b, rfl, rfl, ha, hu, hw, hb⟩
  · rw [hsigned.operands, List.mem_singleton] at ho
    subst ho
    obtain ⟨x, before, after, hoccurs, hrun⟩ := hsigned.operand.exists_occurs
    exact ⟨x, _, _, hoccurs.append_right (avoids_reverse hsigned.sign), hrun⟩
  · have hgap : Avoids isExtentChar (u ++ '-' :: w ++ r) := by
      rw [List.append_assoc]
      exact hu.avoids isExtentChar_apart_isLayout.symm _
    obtain ⟨-, hend⟩ := hyphen_between hu hw
    rcases List.mem_cons.1 ho with rfl | ho
    · obtain ⟨x, before, after, hoccurs, hrun⟩ := ha.exists_occurs
      exact ⟨x, _, _, hoccurs.append_left hgap, hrun⟩
    · obtain rfl := List.mem_singleton.1 ho
      have hpassed : Avoids isExtentChar (l ++ (u ++ '-' :: w)).reverse := by
        rw [List.reverse_append]
        exact hend.append_of_ne_nil (by simp) l.reverse
      obtain ⟨x, before, after, hoccurs, hrun⟩ := hb.exists_occurs
      rw [← List.append_assoc]
      exact ⟨x, _, _, hoccurs.append_right hpassed, hrun⟩

/-! ## Segments and alternatives -/

namespace Separated

variable {α : Type} {S : List Char → Prop} {G : List Char → α → Prop} {as : List α}

/-- A run that occurs in a list of items with separators between them may be exchanged, if it may be
exchanged in each item. -/
theorem exchange {β : Type} {f : α → β} (hx : Exchanges x x')
    (hS : ∀ u, S u → u ≠ [] ∧ ∀ c ∈ u, isExtentChar c = false)
    (hG : ∀ {t before after : List Char} {a : α}, G t a → Occurs x t before after →
      ∃ a', G (before ++ (x' ++ after)) a' ∧ f a' = f a)
    (h : Separated S G t as) (hoccurs : Occurs x t before after) :
    ∃ as', Separated S G (before ++ (x' ++ after)) as' ∧ as'.map f = as.map f := by
  obtain ⟨e, hrun⟩ := hx.exists_writesRun
  induction h generalizing before after with
  | @single t a ha =>
    obtain ⟨a', ha', hf⟩ := hG ha hoccurs
    exact ⟨[a'], .single ha', by rw [List.map_singleton, List.map_singleton, hf]⟩
  | @cons t u r a as ha hu hr ih =>
    obtain ⟨hne, hchars⟩ := hS u hu
    have hgap : Avoids isExtentChar (u ++ r) :=
      (avoids_of_forall hchars).append_of_ne_nil hne r
    rcases hoccurs.append_cases hrun (Or.inr hgap) with ⟨mid, hfirst, rfl⟩ | ⟨mid, hrest, rfl⟩
    · obtain ⟨a', ha', hf⟩ := hG ha hfirst
      refine ⟨a' :: as, ?_, by rw [List.map_cons, List.map_cons, hf]⟩
      have hwrites := Separated.cons ha' hu hr
      rwa [List.append_assoc, List.append_assoc] at hwrites
    · obtain ⟨mid', hrest', rfl⟩ := hrest.exists_append_of_forall hrun hchars
      obtain ⟨as', has', hf⟩ := ih hrest'
      refine ⟨a :: as', ?_, by rw [List.map_cons, List.map_cons, hf]⟩
      rw [List.append_assoc, List.append_assoc]
      exact .cons ha hu has'

/-- What occurs in the text of an item occurs in the text of the list. -/
theorem exists_occurs {P : List Char → Prop} {a : α}
    (hS : ∀ u, S u → u ≠ [] ∧ ∀ c ∈ u, isExtentChar c = false)
    (hG : ∀ {t : List Char}, G t a → ∃ x before after, Occurs x t before after ∧ P x)
    (h : Separated S G t as) (ha : a ∈ as) :
    ∃ x before after, Occurs x t before after ∧ P x := by
  induction h with
  | @single t b hb =>
    obtain rfl := List.mem_singleton.1 ha
    exact hG hb
  | @cons t u r b as hb hu hr ih =>
    obtain ⟨hne, hchars⟩ := hS u hu
    rcases List.mem_cons.1 ha with rfl | ha
    · have hgap : Avoids isExtentChar (u ++ r) :=
        (avoids_of_forall hchars).append_of_ne_nil hne r
      obtain ⟨x, before, after, hoccurs, hx⟩ := hG hb
      exact ⟨x, _, _, hoccurs.append_left hgap, hx⟩
    · have hpassed : Avoids isExtentChar (t ++ u).reverse :=
        avoids_reverse_append (fun hnil => absurd hnil hne) hchars
      obtain ⟨x, before, after, hoccurs, hx⟩ := ih ha
      rw [← List.append_assoc]
      exact ⟨x, _, _, hoccurs.append_right hpassed, hx⟩

end Separated

theorem IsLayoutRun.not_isExtentChar {u : List Char} (hu : IsLayoutRun u) :
    u ≠ [] ∧ ∀ c ∈ u, isExtentChar c = false :=
  ⟨hu.1, fun c hc => isExtentChar_apart_isLayout.symm c (hu.2 c hc)⟩

theorem IsBars.not_isExtentChar {u : List Char} (hu : IsBars u) :
    u ≠ [] ∧ ∀ c ∈ u, isExtentChar c = false := by
  refine ⟨?_, hu.forall_mem isExtentChar_apart_isLayout.symm (by decide)⟩
  obtain ⟨hu, hw⟩ := hu
  simp

theorem WritesSegment.exchange {ts : List (Term Operand)} (hx : Exchanges x x')
    (h : WritesSegment t ts) (hoccurs : Occurs x t before after) :
    ∃ ts', WritesSegment (before ++ (x' ++ after)) ts' ∧
      ts'.map (Term.map Operand.bare) = ts.map (Term.map Operand.bare) := by
  cases h with
  | absent =>
    obtain ⟨e, hrun⟩ := hx.exists_writesRun
    exact (hoccurs.not_of_forall hrun (by simp)).elim
  | present hterms =>
    obtain ⟨ts', hts', hbare⟩ := hterms.exchange hx (fun _ hu => hu.not_isExtentChar)
      (fun hterm => hterm.exchange hx) hoccurs
    exact ⟨ts', .present hts', hbare⟩

/-- **A run that occurs in the text of alternatives may be exchanged**, and the alternatives mean the
same. -/
theorem WritesAlternatives.exchange {alternatives : Alternatives Operand} (hx : Exchanges x x')
    (h : WritesAlternatives t alternatives) (hoccurs : Occurs x t before after) :
    ∃ alternatives', WritesAlternatives (before ++ (x' ++ after)) alternatives' ∧
      alternatives'.map Operand.bare = alternatives.map Operand.bare := by
  obtain ⟨segments', hsegments', hbare⟩ := Separated.exchange hx
    (fun _ hu => hu.not_isExtentChar) (fun hsegment => hsegment.exchange hx) h hoccurs
  exact ⟨⟨segments'⟩, hsegments', congrArg Alternatives.mk hbare⟩

/-- **Each operand of alternatives is a run that occurs in their text.** -/
theorem WritesAlternatives.exists_occurs {alternatives : Alternatives Operand} {o : Operand}
    (h : WritesAlternatives t alternatives) (ho : o ∈ alternatives.operands) :
    ∃ x before after, Occurs x t before after ∧ WritesRun x o.extent := by
  obtain ⟨y, hy, ho⟩ := List.mem_flatMap.1 ho
  obtain ⟨segment, hsegment, hy⟩ := List.mem_flatten.1 hy
  refine Separated.exists_occurs (fun _ hu => hu.not_isExtentChar) (fun hwrites => ?_) h hsegment
  cases hwrites with
  | absent => exact absurd hy List.not_mem_nil
  | present hterms =>
    exact hterms.exists_occurs (fun _ hu => hu.not_isExtentChar)
      (fun hterm => hterm.exists_occurs ho) hy

/-! ## Whole texts -/

/-- Around a run, blanks are stripped from the outer ends alone, and the run stands in what is left. -/
theorem Occurs.dropWhile_trimEnd (h : Occurs x t before after) :
    Occurs x (before.dropWhile isBlank ++ (x ++ trimEnd after)) (before.dropWhile isBlank)
      (trimEnd after) where
  eq := rfl
  avoids_before := by
    have hbefore := h.avoids_before
    rw [← List.takeWhile_append_dropWhile (p := isBlank) (l := before)] at hbefore
    exact hbefore.of_append_reverse
  avoids_after := by
    have hafter := h.avoids_after
    rw [← trimEnd_append_trailingBlanks after] at hafter
    exact hafter.of_append

/-- What occurs in the body of a text occurs in the text, since blanks are no part of a run. -/
theorem Occurs.of_trim {s : List Char} (h : Occurs x (trim s) before after) :
    Occurs x s (leadingBlanks s ++ before) (after ++ trailingBlanks s) := by
  have hblank : ∀ {w : List Char}, (∀ c ∈ w, isBlank c = true) →
      ∀ c ∈ w, isExtentChar c = false :=
    fun hw c hc => isExtentChar_apart_isBlank.symm c (hw c hc)
  have hleading := avoids_reverse (hblank (isBlank_of_mem_leadingBlanks (s := s)))
  have htrailing := avoids_of_forall (hblank (isBlank_of_mem_trailingBlanks (s := s)))
  have hwhole := (h.append_right hleading).append_left htrailing
  rwa [leadingBlanks_append_trim_append_trailingBlanks] at hwhole

/-- **In a range text a run may be exchanged.**  The other text is read as well, and as a range that is
the same when bare. -/
theorem Range.exists_parse_exchange {text text' : String} {options : Options} {range : Range}
    (hx : Exchanges x x') (htext : Occurs x text.toList before after)
    (htext' : text'.toList = before ++ (x' ++ after)) (h : parse text options = .ok range) :
    ∃ range', parse text' options = .ok range' ∧ range'.bare = range.bare := by
  obtain ⟨alternatives, hwrites, rfl⟩ := parse_eq_ok_iff.1 h
  rw [htext.eq, trim_append_of_tight hx.tight] at hwrites
  obtain ⟨alternatives', hwrites', hbare⟩ := hwrites.exchange hx htext.dropWhile_trimEnd
  rw [← trim_append_of_tight hx.symm.tight, ← htext'] at hwrites'
  refine ⟨_, parse_eq_ok_iff.2 ⟨alternatives', hwrites', rfl⟩, ?_⟩
  rw [bare_ofAlternatives, bare_ofAlternatives, hbare]

end SemanticVersioning
