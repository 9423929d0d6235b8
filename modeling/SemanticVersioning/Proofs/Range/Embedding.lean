import Mathlib.Control.Monad.Basic
import SemanticVersioning.Proofs.Range.RoundTrip

/-!
# Version texts as ranges

A text of the strict notation of versions is a range text as it stands, and it is one with an
operator in front of it. The range has one comparator, over the version that the text is.

## One text under two notations

The two notations differ nearly everywhere: an operand may lack components, have wildcards and
leading zeros, and leave the dash before a pre-release out. What they have in common is decided by
the normal form of versions. A strict text is the text of its version (`WritesVersion.eq_render`),
and the text of a version writes a complete operand (`Version.Writable.writesOperand`). So the text
is read as that operand and not as anything else that the wider notation could see in it.

## The operand itself

If a version is a pre-release, then the range of its text has to admit it although pre-releases are
excluded. It does, since the only comparator names a pre-release of the very core
(`ComparatorSet.admits_exact`).
-/

namespace SemanticVersioning

open Reader Text

/-! ## Operands with and without a sign -/

/-- **An operand alone is a range of one comparator set**, that of the versions that agree with
it. -/
theorem WritesOperand.range_parse_eq_ok {p : String} {o : Operand} (hp : WritesOperand p.toList o)
    (options : Options) : Range.parse p options = .ok
      { sets := [⟨(o.resolve options).compared options.includePrerelease .exact⟩], options } := by
  obtain ⟨-, -, -, ho⟩ := hp.exists_blanks
  have hterm : WritesTerm (trim p.toList) (.compare .exact o) := by
    rw [hp.trim_eq]
    exact .plain ho
  exact hterm.range_parse_eq_ok options

namespace Operator

/-- What may stand in front of an operand, with what it means. Nothing at all means exactness. -/
def signs : List (String × Operator) :=
  [("", exact), ("=", exact), ("<", less), ("<=", lessOrEqual), (">", greater),
    (">=", greaterOrEqual)]

theorem mem_signs {sign : String} {op : Operator} (h : (sign, op) ∈ signs) :
    sign = "" ∧ op = exact ∨ WritesOperator sign.toList op := by
  simp only [signs, List.mem_cons, Prod.mk.injEq, List.not_mem_nil, or_false] at h
  rcases h with h | ⟨rfl, rfl⟩ | ⟨rfl, rfl⟩ | ⟨rfl, rfl⟩ | ⟨rfl, rfl⟩ | ⟨rfl, rfl⟩
  · exact Or.inl h
  · exact Or.inr .exact
  · exact Or.inr .less
  · exact Or.inr .lessOrEqual
  · exact Or.inr .greater
  · exact Or.inr .greaterOrEqual

/-- A sign and an operand are a range of one comparator set, also if the sign is missing. -/
theorem parse_sign_eq_ok {sign p : String} {op : Operator} {o : Operand}
    (hsign : (sign, op) ∈ signs) (hp : WritesOperand p.toList o) (options : Options) :
    Range.parse (sign ++ p) options = .ok
      { sets := [⟨(o.resolve options).compared options.includePrerelease op⟩], options } := by
  rcases mem_signs hsign with ⟨rfl, rfl⟩ | hoperator
  · rw [String.empty_append]
    exact hp.range_parse_eq_ok options
  · exact Operator.parse_eq_ok hoperator hp options

end Operator

/-! ## The range of one version -/

/-- The set that demands one version admits that version and no other. A pre-release is not excluded
from it: where it is demanded, one of its core is named. -/
theorem ComparatorSet.admits_exact (u v : Version) (includePrerelease : Bool) :
    admits ⟨[⟨.exact, u⟩]⟩ includePrerelease v = v.samePrecedence u := by
  rw [Bool.eq_iff_iff, Version.samePrecedence_iff, ← Version.compare_eq_eq_iff]
  have htest : test ⟨[⟨.exact, u⟩]⟩ v = true ↔ compare v u = .eq := by
    simp [test, Comparator.test, Operator.admits]
  rw [admits, Bool.and_eq_true, htest]
  refine and_iff_left_of_imp fun heq => ?_
  have hrank : v.toRank = u.toRank := Version.compare_eq_eq_iff.1 heq
  have hcore : u.core = v.core := congrArg Rank.core hrank.symm
  have hpre : u.isPrerelease = v.isPrerelease := congrArg Rank.isPrerelease hrank.symm
  cases hv : v.isPrerelease <;>
    simp [permits, Comparator.namesPrereleaseOf, hcore, hpre, hv]

/-- A strict text writes the operand of its version. -/
theorem Version.writesOperand_of_parse {text : String} {v : Version}
    (h : Version.parse text {} = .ok v) :
    WritesOperand text.toList v.operand ∧ v.operand.text = text := by
  obtain ⟨-, hstrict, -, -⟩ := Version.parse_eq_ok_iff.1 h
  have htext : v.render = text := Version.render_eq_of_parse_strict h h
  have hoperand := hstrict.writable.writesOperand
  rw [htext] at hoperand
  exact ⟨hoperand, htext⟩

/-- The operand of a version that was read, resolved, is that version without its build metadata and
with the options of operands. -/
theorem Version.resolve_operand {text : String} {v : Version} (h : Version.parse text {} = .ok v)
    (options : Options) : v.operand.resolve options =
      .full { v.withoutBuild with options := options.loosely } := by
  obtain ⟨-, -, hraw, -⟩ := Version.parse_eq_ok_iff.1 h
  obtain ⟨-, htext⟩ := Version.writesOperand_of_parse h
  rw [Operand.resolve, htext, ← hraw]
  rfl

/-- **A strict version text is a range text, alone and after each sign.**  The range has one set of
one comparator. Its operator is the one that the sign means, and its version is the one that the
text is read as, without the build metadata; only the options are those of an operand. The range of
the text alone, or of the text after `=`, admits a version exactly if it has the same precedence,
whether it is a release or a pre-release. -/
theorem Range.parse_sign_append_version {text : String} {v : Version}
    (hv : Version.parse text {} = .ok v) {sign : String} {op : Operator}
    (hsign : (sign, op) ∈ Operator.signs) (options : Options) :
    ∃ range c, Range.parse (sign ++ text) options = .ok range ∧
      range.options = options ∧ range.sets = [⟨[c]⟩] ∧ c.operator = op ∧
      c.version = { v.withoutBuild with options := options.loosely } ∧
      (op = .exact → ∀ w : Version, range.admits w = true ↔ w.samePrecedence v = true) := by
  obtain ⟨hoperand, -⟩ := Version.writesOperand_of_parse hv
  have hrange := Operator.parse_sign_eq_ok hsign hoperand options
  rw [Version.resolve_operand hv] at hrange
  refine ⟨_, ⟨op, { v.withoutBuild with options := options.loosely }⟩, hrange, rfl, rfl, rfl, rfl,
    ?_⟩
  rintro rfl w
  have hset := ComparatorSet.admits_exact { v.withoutBuild with options := options.loosely } w
    options.includePrerelease
  simp only [Range.admits, Extent.compared, List.any_cons, List.any_nil, Bool.or_false, hset]
  rfl

/-- A text in which the wider notation could look for a missing dash, or take the dash of the second
identifier for it. The pre-release that it writes is admitted, and build metadata does not count. -/
theorem Range.parse_sign_append_version_dashes :
    (∃ v, Version.parse "1.2.3--0a.-+x" {} = .ok v ∧
      ∃ range c, Range.parse (">=" ++ "1.2.3--0a.-+x") {} = .ok range ∧
        range.sets = [⟨[c]⟩] ∧ c.operator = .greaterOrEqual ∧
        c.version = { v.withoutBuild with options := { loose := true } }) ∧
    ∃ range, Range.parse ("" ++ "1.2.3--0a.-+x") {} = .ok range ∧
      range.admits { core := ⟨1, 2, 3⟩, preRelease := [.alphanumeric "-0a", .alphanumeric "-"] } =
        true := by
  have hv : Version.parse "1.2.3--0a.-+x" {} =
      .ok { core := ⟨1, 2, 3⟩, preRelease := [.alphanumeric "-0a", .alphanumeric "-"],
            build := ["x"], raw := some "1.2.3--0a.-+x" } := by decide +kernel
  have hge : (">=", Operator.greaterOrEqual) ∈ Operator.signs := by decide
  have hnone : ("", Operator.exact) ∈ Operator.signs := by decide
  obtain ⟨range, c, hrange, -, hsets, hop, hversion, -⟩ :=
    Range.parse_sign_append_version hv hge {}
  obtain ⟨exactly, _, hexactly, -, -, -, -, hadmits⟩ :=
    Range.parse_sign_append_version hv hnone {}
  exact ⟨⟨_, hv, range, c, hrange, hsets, hop, hversion⟩, exactly, hexactly,
    (hadmits rfl _).2 (by decide +kernel)⟩

end SemanticVersioning
