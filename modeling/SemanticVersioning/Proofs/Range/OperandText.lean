import SemanticVersioning.Proofs.Range.Exactness
import SemanticVersioning.Proofs.Version.Exactness

/-!
# The texts of operands

An operand of a range is read by a reader of its own, and a version by another one. This module
compares what they make of one text.

* `WritesExtent.parse_eq_ok`: behind any leaders, the components of a complete operand are read as a
  version.
* `WritesOperand.parse_eq_ok`: the text of a complete operand, if it is not too long, is a version
  text in the loose notation, and the version it is read as is the one of the operand.
* `Operator.parse_eq_ok`: an operator in front of an operand is a range of one comparator.

All stand on whole texts, whose outer blanks are stripped. An operand ends with a character of its
last component or qualifier, which is no blank, so nothing is stripped from it.
-/

namespace SemanticVersioning

open Reader Text

/-! ## The characters of operands -/

/-- The characters of the components of an operand and of its qualifier. -/
def isExtentChar (c : Char) : Bool :=
  isComponentStart c || isQualifierChar c

theorem isExtentChar_of_isComponentStart {c : Char} (h : isComponentStart c = true) :
    isExtentChar c = true := by
  simp only [isExtentChar, h, Bool.true_or]

theorem isExtentChar_of_isQualifierChar {c : Char} (h : isQualifierChar c = true) :
    isExtentChar c = true := by
  simp only [isExtentChar, h, Bool.or_true]

theorem isExtentChar_of_isOperandStart {c : Char} (h : isOperandStart c = true) :
    isExtentChar c = true := by
  simp only [isOperandStart, isMark, Bool.or_eq_true, beq_iff_eq] at h
  rcases h with (rfl | rfl) | h
  · decide
  · decide
  · exact isExtentChar_of_isComponentStart h

theorem WritesComponent.isExtentChar {t : List Char} {x : Option Nat} (h : WritesComponent t x) :
    ∀ c ∈ t, isExtentChar c = true := by
  intro c hc
  refine isExtentChar_of_isComponentStart ?_
  cases h with
  | wildcard hw =>
    obtain rfl := List.mem_singleton.1 hc
    simp only [isComponentStart, hw, Bool.true_or]
  | number hn => simp only [isComponentStart, hn.digits c hc, Bool.or_true]

theorem WritesPatchPart.isExtentChar {t : List Char}
    {z : Option Nat × List Identifier × List String} (h : WritesPatchPart t z) :
    ∀ c ∈ t, isExtentChar c = true := by
  intro c hc
  cases h with
  | intro ht hq =>
    rcases List.mem_cons.1 hc with rfl | hc
    · decide
    rcases List.mem_append.1 hc with hc | hc
    · exact ht.isExtentChar c hc
    · exact isExtentChar_of_isQualifierChar (hq.isQualifierChar c hc)

theorem WritesMinorPart.isExtentChar {t : List Char}
    {y : Option Nat × Option (Option Nat × List Identifier × List String)}
    (h : WritesMinorPart t y) : ∀ c ∈ t, isExtentChar c = true := by
  intro c hc
  cases h with
  | last hb =>
    rcases List.mem_cons.1 hc with rfl | hc
    · decide
    · exact hb.isExtentChar c hc
  | more hb ht =>
    rcases List.mem_cons.1 hc with rfl | hc
    · decide
    rcases List.mem_append.1 hc with hc | hc
    · exact hb.isExtentChar c hc
    · exact ht.isExtentChar c hc

theorem WritesExtent.isExtentChar {t : List Char} {e : Extent} (h : WritesExtent t e) :
    ∀ c ∈ t, isExtentChar c = true := by
  intro c hc
  cases h with
  | last ha => exact ha.isExtentChar c hc
  | more ha ht =>
    rcases List.mem_append.1 hc with hc | hc
    · exact ha.isExtentChar c hc
    · exact ht.isExtentChar c hc

/-! ## Nothing is stripped from an operand -/

/-- The characters of operands come after the blanks of one byte and before all other blanks. -/
theorem toNat_of_isExtentChar {c : Char} (h : isExtentChar c = true) :
    32 < c.toNat ∧ c.toNat < 133 := by
  simp only [isExtentChar, isComponentStart, isWildcard, Bool.or_eq_true, beq_iff_eq] at h
  rcases h with (((rfl | rfl) | rfl) | hc) | hc
  · decide
  · decide
  · decide
  · exact toNat_of_isQualifierChar (isQualifierChar_of_isDigit hc)
  · exact toNat_of_isQualifierChar hc

theorem isExtentChar_apart_isBlank : Apart isExtentChar isBlank :=
  apart_isBlank fun _ => toNat_of_isExtentChar

/-- Nothing is stripped from components. -/
theorem WritesExtent.tight {t : List Char} {e : Extent} (h : WritesExtent t e) : Tight t := by
  refine .of_forall ?_ fun c hc => isExtentChar_apart_isBlank c (h.isExtentChar c hc)
  obtain ⟨c, r, rfl, -⟩ := h.exists_first
  exact List.cons_ne_nil c r

/-- The text of an operand ends with no blank, whatever stands before it. -/
theorem WritesOperand.avoids_isBlank_reverse {t : List Char} {o : Operand} (h : WritesOperand t o)
    (s : List Char) : Avoids isBlank (s ++ t).reverse := by
  have hextent : ∃ u v e, t = u ++ v ∧ WritesExtent v e := by
    cases h with
    | @marked m blanks t e _ _ ht => exact ⟨m :: blanks, t, e, rfl, ht⟩
    | @unmarked blanks t e _ ht => exact ⟨blanks, t, e, rfl, ht⟩
  obtain ⟨u, v, e, rfl, hv⟩ := hextent
  rw [List.reverse_append, List.reverse_append, List.append_assoc]
  exact hv.tight.last.append_of_ne_nil (mt List.reverse_eq_nil_iff.1 hv.tight.ne_nil) _

theorem isOperandStart_apart_isBlank : Apart isOperandStart isBlank :=
  isExtentChar_apart_isBlank.mono (fun _ => isExtentChar_of_isOperandStart) fun _ hc => hc

theorem WritesOperand.trim_text {t : List Char} {o : Operand} (h : WritesOperand t o) :
    trim o.text.toList = o.text.toList := by
  obtain ⟨blanks, -, -, htext⟩ := h.exists_blanks
  have hfirst := h.avoids_text isOperandStart_apart_isBlank []
  rw [List.append_nil] at hfirst
  exact trim_eq_self hfirst (htext.avoids_isBlank_reverse [])

/-- The blanks in front of an operand are stripped from a text that begins with it. -/
theorem WritesOperand.trim_append_eq {t : List Char} {o : Operand} (h : WritesOperand t o)
    (s : List Char) : trim (t ++ s) = trim (o.text.toList ++ s) := by
  obtain ⟨blanks, hblanks, rfl, -⟩ := h.exists_blanks
  rw [List.append_assoc, trim_append_of_isBlank_left fun c hc =>
    isBlank_of_isLayout (isLayout_of_isInlineSpace (hblanks c hc))]

theorem WritesOperand.trim_eq {t : List Char} {o : Operand} (h : WritesOperand t o) :
    trim t = o.text.toList := by
  have hbody := h.trim_append_eq []
  rwa [List.append_nil, List.append_nil, h.trim_text] at hbody

/-- From a text between two operands nothing else is stripped. -/
theorem WritesOperand.trim_between {s t : List Char} {a b : Operand} (ha : WritesOperand s a)
    (hb : WritesOperand t b) (m : List Char) :
    trim (s ++ (m ++ t)) = a.text.toList ++ (m ++ t) := by
  rw [ha.trim_append_eq]
  refine trim_eq_self (ha.avoids_text isOperandStart_apart_isBlank _) ?_
  rw [← List.append_assoc]
  exact hb.avoids_isBlank_reverse _

/-! ## Complete operands are versions -/

theorem Extent.ofComponents_eq_full_iff {x : Option Nat} {v : Version}
    {y : Option (Option Nat × Option (Option Nat × List Identifier × List String))} :
    Extent.ofComponents x y = .full v ↔ x = some v.core.major ∧
      y = some (some v.core.minor, some (some v.core.patch, v.preRelease, v.build)) ∧
        v.raw = none ∧ v.options = {} := by
  constructor
  · intro h
    unfold Extent.ofComponents at h
    split at h
    case h_6 =>
      obtain rfl := Extent.full.inj h
      exact ⟨rfl, rfl, rfl, rfl⟩
    all_goals exact nomatch h
  · obtain ⟨⟨core, is⟩, parts, raw, options⟩ := v
    rintro ⟨rfl, rfl, hraw, hoptions⟩
    obtain rfl : raw = none := hraw
    obtain rfl : options = {} := hoptions
    rfl

/-- A complete extent is the three numbers and the qualifier of a version. -/
theorem WritesExtent.exists_of_full {t : List Char} {v : Version}
    (h : WritesExtent t (.full v)) : ∃ a b c q, t = a ++ '.' :: (b ++ '.' :: (c ++ q)) ∧
      WritesNumber true a v.core.major ∧ WritesNumber true b v.core.minor ∧
        WritesNumber true c v.core.patch ∧ WritesQualifier true true q v.preRelease v.build := by
  generalize he : Extent.full v = e at h
  cases h with
  | last ha => exact nomatch (Extent.ofComponents_eq_full_iff.1 he.symm).2.1
  | @more a t x y ha ht =>
    obtain ⟨rfl, hy, -⟩ := Extent.ofComponents_eq_full_iff.1 he.symm
    obtain rfl := Option.some.inj hy
    cases ht with
    | @more b t _ _ hb ht =>
      cases ht with
      | @intro c q _ _ _ hc hq =>
        cases ha with
        | number ha =>
          cases hb with
          | number hb =>
            cases hc with
            | number hc => exact ⟨a, b, c, q, rfl, ha, hb, hc, hq⟩

theorem isLeader_of_isMark {c : Char} (h : isMark c = true) : isLeader c = true := by
  simp only [isMark, Bool.or_eq_true] at h
  simp only [isLeader, Bool.or_eq_true]
  exact Or.inl (Or.inl h)

theorem isLeader_of_isInlineSpace {c : Char} (h : isInlineSpace c = true) : isLeader c = true := by
  simp only [isLeader, h, Bool.or_true]

/-- Behind leaders a complete extent writes its version. -/
theorem WritesExtent.writesVersion {lead t : List Char} {v : Version}
    (h : WritesExtent t (.full v)) (hlead : ∀ c ∈ lead, isLeader c = true) :
    WritesVersion true (lead ++ t) v.core v.preRelease v.build := by
  obtain ⟨a, b, c, q, rfl, ha, hb, hc, hq⟩ := h.exists_of_full
  exact .intro hlead (Or.inl rfl) ha hb hc hq

/-- Behind leaders a complete extent is read as its version, unless the text is longer than a
version text may be. Of the leaders the blanks at the outer end are stripped, and the others are
skipped. -/
theorem WritesExtent.parse_eq_ok {lead t : List Char} {v : Version}
    (h : WritesExtent t (.full v)) (hlead : ∀ c ∈ lead, isLeader c = true) {text : String}
    (htext : text.toList = lead ++ t) (hlength : utf8Length text.toList ≤ maxLength)
    {options : Options} (hloose : options.loose = true) :
    Version.parse text options = .ok { v with raw := some text, options } := by
  have hbody : Version.body true text.toList = lead.dropWhile isBlank ++ t := by
    have htrim := trim_append_of_tight h.tight lead []
    rw [List.append_nil] at htrim
    rw [htext]
    exact htrim.trans (by simp [trimEnd])
  have hversion := h.writesVersion fun c hc =>
    hlead c ((List.dropWhile_sublist isBlank).subset hc)
  refine Version.parse_eq_ok_iff.2 ⟨hlength, ?_, rfl, rfl⟩
  rw [hloose, hbody]
  exact hversion

/-- The text of a complete operand is leaders and the components of its version. -/
theorem WritesOperand.exists_leaders {t : List Char} {o : Operand} {v : Version}
    (h : WritesOperand t o) (hv : o.extent = .full v) :
    ∃ lead t, o.text.toList = lead ++ t ∧ (∀ c ∈ lead, isLeader c = true) ∧
      WritesExtent t (.full v) := by
  cases h with
  | @marked m blanks t e hm hblanks ht =>
    obtain rfl : e = .full v := hv
    refine ⟨m :: blanks, t, String.toList_ofList, ?_, ht⟩
    rw [List.forall_mem_cons]
    exact ⟨isLeader_of_isMark hm, fun c hc => isLeader_of_isInlineSpace (hblanks c hc)⟩
  | @unmarked blanks t e _ ht =>
    obtain rfl : e = .full v := hv
    exact ⟨[], t, String.toList_ofList, by simp, ht⟩

/-- The text of a complete operand writes its version, with the letter and the blanks in front as
what may stand before the core of a version. -/
theorem WritesOperand.writesVersion {t : List Char} {o : Operand} {v : Version}
    (h : WritesOperand t o) (hv : o.extent = .full v) :
    WritesVersion true o.text.toList v.core v.preRelease v.build := by
  obtain ⟨lead, t, htext, hlead, ht⟩ := h.exists_leaders hv
  rw [htext]
  exact ht.writesVersion hlead

theorem Operand.version?_eq_some_iff {o : Operand} {options : Options} {v : Version} :
    o.version? options = some v ↔ ∃ w, o.extent = .full w ∧
      v = { w with raw := some o.text, options := options.loosely } := by
  rw [version?]
  cases o.extent with
  | full w => simp [eq_comm]
  | any => simp
  | major => simp
  | minor => simp

/-- **The text of a complete operand is read as the operand's version**, unless the text is longer
than a version text may be. -/
theorem WritesOperand.parse_eq_ok {t : List Char} {o : Operand} (h : WritesOperand t o)
    {options : Options} {v : Version} (hv : o.version? options = some v)
    (hlength : utf8Length o.text.toList ≤ maxLength) :
    Version.parse o.text options.loosely = .ok v := by
  obtain ⟨w, hw, rfl⟩ := Operand.version?_eq_some_iff.1 hv
  obtain ⟨lead, t, htext, hlead, ht⟩ := h.exists_leaders hw
  exact ht.parse_eq_ok hlead htext hlength (Options.loose_loosely options)

/-! ## The operands of a range text -/

theorem WritesTerm.exists_of_mem_operands {t : List Char} {x : Term Operand} (h : WritesTerm t x)
    {o : Operand} (ho : o ∈ x.operands) : ∃ u, WritesOperand u o := by
  cases h with
  | @hyphen t u w r a b ha _ _ hb =>
    rcases List.mem_cons.1 ho with rfl | ho
    · exact ⟨t, ha⟩
    · obtain rfl := List.mem_singleton.1 ho
      exact ⟨r, hb⟩
  | @compare _ _ t _ a _ _ ha =>
    obtain rfl := List.mem_singleton.1 ho
    exact ⟨t, ha⟩
  | @plain t a ha =>
    obtain rfl := List.mem_singleton.1 ho
    exact ⟨t, ha⟩
  | @tilde _ _ _ t a _ _ _ ha =>
    obtain rfl := List.mem_singleton.1 ho
    exact ⟨t, ha⟩
  | @caret _ t a _ ha =>
    obtain rfl := List.mem_singleton.1 ho
    exact ⟨t, ha⟩

/-- Each operand of a range text is written by some part of it. -/
theorem WritesAlternatives.exists_of_mem_operands {t : List Char}
    {alternatives : Alternatives Operand} (h : WritesAlternatives t alternatives)
    {segment : List (Term Operand)} (hsegment : segment ∈ alternatives.segments)
    {x : Term Operand} (hx : x ∈ segment) {o : Operand} (ho : o ∈ x.operands) :
    ∃ u, WritesOperand u o := by
  obtain ⟨s, hs⟩ := Separated.exists_of_mem h hsegment
  cases hs with
  | absent => exact nomatch hx
  | present hs =>
    obtain ⟨u, hu⟩ := hs.exists_of_mem hx
    exact hu.exists_of_mem_operands ho

/-- The texts of the operands of a term stand in its text, from left to right. -/
theorem WritesTerm.sublist_operands {t : List Char} {x : Term Operand} (h : WritesTerm t x) :
    (x.operands.flatMap fun o => o.text.toList).Sublist t := by
  have hoperand : ∀ {u : List Char} {o : Operand}, WritesOperand u o → o.text.toList.Sublist u := by
    intro u o hu
    obtain ⟨blanks, -, htext, -⟩ := hu.exists_blanks
    rw [htext]
    exact List.sublist_append_right blanks o.text.toList
  cases h with
  | @hyphen t u w r a b ha _ _ hb =>
    have hlower : (a.text.toList ++ b.text.toList).Sublist (t ++ r) :=
      (hoperand ha).append (hoperand hb)
    simp only [Term.operands, List.flatMap_cons, List.flatMap_nil, List.append_nil]
    refine hlower.trans ((List.Sublist.refl t).append ?_)
    exact ((List.sublist_append_right w r).cons '-').trans (List.sublist_append_right u _)
  | @compare s blanks t _ a _ _ ha =>
    simp only [Term.operands, List.flatMap_cons, List.flatMap_nil, List.append_nil]
    exact (hoperand ha).trans
      ((List.sublist_append_right blanks t).trans (List.sublist_append_right s _))
  | @plain t a ha =>
    simp only [Term.operands, List.flatMap_cons, List.flatMap_nil, List.append_nil]
    exact hoperand ha
  | @tilde blanks g blanks' t a _ _ _ ha =>
    simp only [Term.operands, List.flatMap_cons, List.flatMap_nil, List.append_nil]
    refine ((hoperand ha).trans ?_).cons '~'
    exact (List.sublist_append_right blanks' t).trans
      ((List.sublist_append_right g _).trans (List.sublist_append_right blanks _))
  | @caret blanks t a _ ha =>
    simp only [Term.operands, List.flatMap_cons, List.flatMap_nil, List.append_nil]
    exact ((hoperand ha).trans (List.sublist_append_right blanks t)).cons '^'

/-- The operands of a range text are listed in the order of the text. -/
theorem WritesAlternatives.sublist_operands {t : List Char} {alternatives : Alternatives Operand}
    (h : WritesAlternatives t alternatives) :
    (alternatives.operands.flatMap fun o => o.text.toList).Sublist t := by
  have hsegments : (alternatives.segments.flatMap fun segment =>
      segment.flatMap fun x => x.operands.flatMap fun o => o.text.toList).Sublist t := by
    refine Separated.sublist_flatMap (fun u segment hsegment => ?_) h
    cases hsegment with
    | absent => exact List.nil_sublist _
    | present hterms => exact hterms.sublist_flatMap fun _ _ hx => hx.sublist_operands
  rw [Alternatives.operands, List.flatMap_assoc, ← List.flatMap_id, List.flatMap_assoc]
  exact hsegments

/-! ## Operators in front of operands -/

theorem isOperatorChar_apart_isBlank : Apart isOperatorChar isBlank := by
  refine apart_of_all ['<', '>', '=', '!'] (fun c hc => ?_) (by decide)
  simpa [isOperatorChar, or_assoc] using hc

/-- A text that writes one segment is a range of one comparator set. -/
theorem WritesSegment.range_parse_eq_ok {text : String} {ts : List (Term Operand)}
    (h : WritesSegment (trim text.toList) ts) (options : Options) : Range.parse text options = .ok
      { sets := [⟨ts.flatMap fun x =>
          (x.map (Operand.resolve options)).expand options.includePrerelease⟩],
        options } := by
  have halternatives : WritesAlternatives (trim text.toList) ⟨[ts]⟩ := .single h
  refine Range.parse_eq_ok_iff.2 ⟨⟨[ts]⟩, halternatives, ?_⟩
  simp only [Range.ofAlternatives, Alternatives.map, List.map_cons, List.map_nil,
    List.flatMap_map]

/-- A text that writes one term is a range of the comparators of that term. -/
theorem WritesTerm.range_parse_eq_ok {text : String} {x : Term Operand}
    (h : WritesTerm (trim text.toList) x) (options : Options) : Range.parse text options = .ok
      { sets := [⟨(x.map (Operand.resolve options)).expand options.includePrerelease⟩],
        options } := by
  have hsegment : WritesSegment (trim text.toList) [x] := .present (.single h)
  rw [hsegment.range_parse_eq_ok options, List.flatMap_singleton]

/-- A sign and an operand that write one term are a range of one comparator set, if the sign does not
begin with a blank. -/
theorem WritesTerm.range_parse_append_eq_ok {sign p : String} {o : Operand} {x : Term Operand}
    {c : Char} {r : List Char} (h : WritesTerm (sign.toList ++ p.toList) x)
    (hp : WritesOperand p.toList o) (hsign : sign.toList = c :: r) (hc : isBlank c = false)
    (options : Options) : Range.parse (sign ++ p) options = .ok
      { sets := [⟨(x.map (Operand.resolve options)).expand options.includePrerelease⟩],
        options } := by
  have htrim : trim (sign ++ p).toList = sign.toList ++ p.toList := by
    rw [String.toList_append]
    refine trim_eq_self ?_ (hp.avoids_isBlank_reverse sign.toList)
    rw [hsign]
    exact avoids_cons_iff.2 hc
  rw [← htrim] at h
  exact h.range_parse_eq_ok options

/-- **An operator in front of an operand is a range of one comparator set**, that of the versions
in the relation to the operand. -/
theorem Operator.parse_eq_ok {sign p : String} {op : Operator} {o : Operand}
    (hsign : WritesOperator sign.toList op) (hp : WritesOperand p.toList o) (options : Options) :
    Range.parse (sign ++ p) options = .ok
      { sets := [⟨(o.resolve options).compared options.includePrerelease op⟩], options } := by
  obtain ⟨c, r, hfirst, hc⟩ := hsign.exists_first
  have hterm : WritesTerm (sign.toList ++ ([] ++ p.toList)) (.compare op o) :=
    .compare hsign (by simp) hp
  exact hterm.range_parse_append_eq_ok hp hfirst (isOperatorChar_apart_isBlank c hc) options

end SemanticVersioning
