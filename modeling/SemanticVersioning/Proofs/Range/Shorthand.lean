import SemanticVersioning.Proofs.Range.Embedding
import SemanticVersioning.Proofs.Range.Partition

/-!
# What hyphens and tildes stand for

Pairs with a hyphen and operands with a tilde are expanded by rules of their own. Most of what they
say can be said by comparisons too, and the two ways are read as the same range
(`Range.parse_shorthand`):

* `A - B` is `>=A <=B`, whatever the two operands leave out;
* `~P` and `~>P` are `P` and `=P`, if `P` leaves something out;
* of a complete operand a tilde asks for what no single comparison does: the versions from the operand
  on that have its major and minor numbers.

For the ends of pairs and for tildes on partial operands the comparators are the same, one by one.
What has to be found out are the texts: that they are range texts, and of these terms.
-/

namespace SemanticVersioning

open Text

/-! ## The comparators -/

namespace Extent

theorem lowerEnd_eq_compared (includePrerelease : Bool) (e : Extent) :
    e.lowerEnd includePrerelease = e.compared includePrerelease .greaterOrEqual := by
  cases e <;> rfl

theorem upperEnd_eq_compared (includePrerelease : Bool) (e : Extent) :
    e.upperEnd = e.compared includePrerelease .lessOrEqual := by
  cases e <;> rfl

theorem tilde_eq_compared (includePrerelease : Bool) {e : Extent} (he : ∀ w, e ≠ .full w) :
    e.tilde includePrerelease = e.compared includePrerelease .exact := by
  cases e with
  | full w => exact absurd rfl (he w)
  | any => rfl
  | major => rfl
  | minor => rfl

/-- A version not below another one is of the same major and minor numbers if its core is below the
next minor number. -/
theorem test_tilde_full {v w : Version} (includePrerelease : Bool) :
    ((full w).tilde includePrerelease).all (·.test v) = true ↔
      (compare v w).isGE = true ∧ v.core.major = w.core.major ∧ v.core.minor = w.core.minor := by
  simp only [tilde, List.all_cons, List.all_nil, Bool.and_true, Bool.and_eq_true,
    Comparator.test_atLeast, Comparator.test_ceiling]
  refine and_congr_right fun hge => ?_
  have hcore := Version.core_not_lt_of_isGE hge
  simp only [Core.compare_eq_lt_iff] at hcore ⊢
  omega

end Extent

/-! ## The texts -/

/-- In front of an operand a tilde may be followed by a sign, which means nothing. -/
theorem WritesOperand.tilde_parse_eq_ok {sign p : String} {o : Operand}
    (hsign : sign = "~" ∨ sign = "~>") (hp : WritesOperand p.toList o) (options : Options) :
    Range.parse (sign ++ p) options = .ok
      { sets := [⟨(o.resolve options).tilde options.includePrerelease⟩], options } := by
  obtain ⟨g, hg, hfirst⟩ : ∃ g, (g = [] ∨ g = ['>']) ∧ sign.toList = '~' :: g := by
    rcases hsign with rfl | rfl
    · exact ⟨[], Or.inl rfl, rfl⟩
    · exact ⟨['>'], Or.inr rfl, rfl⟩
  have hterm : WritesTerm (sign.toList ++ p.toList) (.tilde o) := by
    rw [hfirst]
    exact .tilde (List.forall_mem_nil _) hg (List.forall_mem_nil _) hp
  exact hterm.range_parse_append_eq_ok hp hfirst (by decide) options

/-- Two operands with a hyphen between them are a range of the comparators of both ends. -/
theorem WritesOperand.hyphen_parse_eq_ok {a b : String} {lower upper : Operand}
    (ha : WritesOperand a.toList lower) (hb : WritesOperand b.toList upper) (options : Options) :
    Range.parse (a ++ " - " ++ b) options = .ok
      { sets := [⟨(lower.resolve options).lowerEnd options.includePrerelease ++
          (upper.resolve options).upperEnd⟩], options } := by
  obtain ⟨-, -, -, hlower⟩ := ha.exists_blanks
  have hterm : WritesTerm (lower.text.toList ++ ([' '] ++ '-' :: ([' '] ++ b.toList)))
      (.hyphen lower upper) :=
    .hyphen hlower ComparatorSet.isLayoutRun_space ComparatorSet.isLayoutRun_space hb
  have htext : (a ++ " - " ++ b).toList = a.toList ++ ([' ', '-', ' '] ++ b.toList) := by
    simp [String.toList_append]
  have hbody : trim (a ++ " - " ++ b).toList =
      lower.text.toList ++ ([' '] ++ '-' :: ([' '] ++ b.toList)) := by
    rw [htext]
    exact ha.trim_between hb _
  rw [← hbody] at hterm
  exact hterm.range_parse_eq_ok options

/-- Two comparisons with a space between them are a range of the comparators of both. -/
theorem WritesOperand.bounds_parse_eq_ok {a b : String} {lower upper : Operand}
    (ha : WritesOperand a.toList lower) (hb : WritesOperand b.toList upper) (options : Options) :
    Range.parse (">=" ++ a ++ " <=" ++ b) options = .ok
      { sets := [⟨(lower.resolve options).compared options.includePrerelease .greaterOrEqual ++
          (upper.resolve options).compared options.includePrerelease .lessOrEqual⟩],
        options } := by
  have hlower : WritesTerm (['>', '='] ++ ([] ++ a.toList)) (.compare .greaterOrEqual lower) :=
    .compare .greaterOrEqual (List.forall_mem_nil _) ha
  have hupper : WritesTerm (['<', '='] ++ ([] ++ b.toList)) (.compare .lessOrEqual upper) :=
    .compare .lessOrEqual (List.forall_mem_nil _) hb
  have hsegment : WritesSegment
      (['>', '='] ++ ([] ++ a.toList) ++ ([' '] ++ (['<', '='] ++ ([] ++ b.toList))))
      [.compare .greaterOrEqual lower, .compare .lessOrEqual upper] :=
    .present (.cons hlower ComparatorSet.isLayoutRun_space (.single hupper))
  have hbody : trim (">=" ++ a ++ " <=" ++ b).toList =
      ['>', '='] ++ ([] ++ a.toList) ++ ([' '] ++ (['<', '='] ++ ([] ++ b.toList))) := by
    have htext : (">=" ++ a ++ " <=" ++ b).toList =
        '>' :: ('=' :: a.toList ++ [' ', '<', '=']) ++ b.toList := by
      simp [String.toList_append]
    have hfirst : Avoids isBlank ('>' :: ('=' :: a.toList ++ [' ', '<', '=']) ++ b.toList) :=
      avoids_cons_iff.2 (by decide)
    rw [htext, trim_eq_self hfirst (hb.avoids_isBlank_reverse _)]
    simp
  rw [← hbody] at hsegment
  rw [hsegment.range_parse_eq_ok options, List.flatMap_cons, List.flatMap_singleton]
  rfl

/-! ## Shorthand and what it stands for -/

/-- **What is short for comparisons is read as them.**  Let `a`, `b` and `p` be texts of operands. The
pair `a - b` is the same range as `>=a <=b`. If `p` is not complete, the ranges `~p` and `~>p` are the
same as `p` and `=p`. If it is complete, they admit the versions from it on that have its major and
minor numbers, of the releases and, if all pre-releases are included, of all. -/
theorem Range.parse_shorthand {a b p : String} {lower upper o : Operand}
    (ha : WritesOperand a.toList lower) (hb : WritesOperand b.toList upper)
    (hp : WritesOperand p.toList o) (options : Options) :
    (∃ range, parse (a ++ " - " ++ b) options = .ok range ∧
      parse (">=" ++ a ++ " <=" ++ b) options = .ok range) ∧
    ((∀ w, o.extent ≠ .full w) → ∃ range, parse ("~" ++ p) options = .ok range ∧
      parse ("~>" ++ p) options = .ok range ∧ parse p options = .ok range ∧
      parse ("=" ++ p) options = .ok range) ∧
    ∀ w, o.extent = .full w → ∃ range, parse ("~" ++ p) options = .ok range ∧
      parse ("~>" ++ p) options = .ok range ∧
      ∀ v : Version, v.isPrerelease = false ∨ options.includePrerelease = true →
        (range.admits v = true ↔ (compare v w).isGE = true ∧
          v.core.major = w.core.major ∧ v.core.minor = w.core.minor) := by
  have htilde := hp.tilde_parse_eq_ok (Or.inl rfl) options
  have hlong := hp.tilde_parse_eq_ok (Or.inr rfl) options
  refine ⟨⟨_, ha.hyphen_parse_eq_ok hb options, ?_⟩, fun hpartial => ?_, fun w hw => ?_⟩
  · rw [ha.bounds_parse_eq_ok hb, Extent.lowerEnd_eq_compared,
      Extent.upperEnd_eq_compared options.includePrerelease]
  · have hresolved : ∀ w, o.resolve options ≠ .full w := fun w hw => by
      obtain ⟨u, hu, -⟩ := Operand.resolve_eq_full_iff.1 hw
      exact hpartial u hu
    rw [Extent.tilde_eq_compared options.includePrerelease hresolved] at htilde hlong
    have hsign : ("=", Operator.exact) ∈ Operator.signs := by decide
    exact ⟨_, htilde, hlong, hp.range_parse_eq_ok options,
      Operator.parse_sign_eq_ok hsign hp options⟩
  · refine ⟨_, htilde, hlong, fun v hv => ?_⟩
    have hresolved : o.resolve options =
        .full { w with build := [], raw := some o.text, options := options.loosely } :=
      Operand.resolve_eq_full_iff.2 ⟨w, hw, rfl⟩
    rw [Range.admits_single hv, hresolved, Extent.test_tilde_full]
    exact Iff.rfl

/-- A pair with a partial lower end and a complete upper one, and tildes on both operands. -/
theorem Range.parse_shorthand_rc : ∃ pair partly fully : Range,
    parse ("v 1.x" ++ " - " ++ "2.0.0-rc") { includePrerelease := true } = .ok pair ∧
    parse (">=" ++ "v 1.x" ++ " <=" ++ "2.0.0-rc") { includePrerelease := true } = .ok pair ∧
    parse ("~>" ++ "v 1.x") { includePrerelease := true } = .ok partly ∧
    parse "v 1.x" { includePrerelease := true } = .ok partly ∧
    parse ("~" ++ "2.0.0-rc") { includePrerelease := true } = .ok fully ∧
    fully.admits (.numbered 2 0 9 0) = true ∧ fully.admits (.numbered 2 1 0 0) = false := by
  have hnumber : WritesNumber true ['1'] 1 :=
    ⟨by decide, List.all_eq_true.1 rfl, by decide, by decide, by decide⟩
  have hspace : ∀ c ∈ [' '], isInlineSpace c = true := List.forall_mem_singleton.2 rfl
  have hminor : WritesMinorPart ['.', 'x'] (none, none) := .last (.wildcard (c := 'x') rfl)
  have hextent : WritesExtent ['1', '.', 'x'] (.major 1) := .more (.number hnumber) hminor
  have htext : "v 1.x".toList = 'v' :: ([' '] ++ ['1', '.', 'x']) := by decide
  have ha : WritesOperand "v 1.x".toList
      ⟨String.ofList ('v' :: ([' '] ++ ['1', '.', 'x'])), .major 1⟩ := by
    rw [htext]
    exact .marked rfl hspace hextent
  have hparse : Version.parse "2.0.0-rc" {} = .ok
      { core := ⟨2, 0, 0⟩, preRelease := [.alphanumeric "rc"], raw := some "2.0.0-rc" } := by
    decide +kernel
  obtain ⟨hb, -⟩ := Version.writesOperand_of_parse hparse
  let options : Options := { includePrerelease := true }
  obtain ⟨⟨pair, hpair, hbounds⟩, -, hfull⟩ := parse_shorthand ha hb hb options
  obtain ⟨fully, htilde, -, hadmits⟩ := hfull _ rfl
  obtain ⟨-, hpartial, -⟩ := parse_shorthand ha hb ha options
  obtain ⟨partly, -, hlong, hplain, -⟩ := hpartial fun w hw => nomatch hw
  refine ⟨pair, partly, fully, hpair, hbounds, hlong, hplain, htilde, ?_, ?_⟩
  · exact (hadmits _ (Or.inr rfl)).2 ⟨by decide +kernel, rfl, rfl⟩
  · rw [Bool.eq_false_iff, Ne, hadmits _ (Or.inr rfl)]
    rintro ⟨-, -, hminor⟩
    exact absurd hminor (by decide)

end SemanticVersioning
