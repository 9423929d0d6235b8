import SemanticVersioning.Range.Basic
import SemanticVersioning.Version.Printer

/-!
# The text of a range

A comparator is written as its sign and its operand in normal form, a set as its comparators with
spaces between them, a range as its sets with two bars between them. The empty set is written `*`.
A range without sets has a text as well: `<0.0.0-0`, a comparator that admits no version.
-/

namespace SemanticVersioning

/-- The text of a comparator. -/
def Comparator.render (c : Comparator) : String :=
  c.operator.symbol ++ c.version.render

/-- The text of a comparator set. -/
def ComparatorSet.render (set : ComparatorSet) : String :=
  match set.comparators with
  | [] => "*"
  | cs => " ".intercalate (cs.map (·.render))

/-- The text of a range. -/
def Range.render (range : Range) : String :=
  match range.sets with
  | [] => Comparator.render (.below .lowest)
  | sets => "||".intercalate (sets.map (·.render))

instance : ToString Operator := ⟨Operator.symbol⟩
instance : ToString Comparator := ⟨Comparator.render⟩
instance : ToString ComparatorSet := ⟨ComparatorSet.render⟩
instance : ToString Range := ⟨Range.render⟩

namespace ComparatorSet

@[simp] theorem render_nil : render ⟨[]⟩ = "*" := rfl

theorem render_cons (c : Comparator) (cs : List Comparator) :
    render ⟨c :: cs⟩ = " ".intercalate ((c :: cs).map (·.render)) := rfl

end ComparatorSet

namespace Range

theorem render_nothing : nothing.render = "<0.0.0-0" := by decide +kernel

theorem render_anyRelease : anyRelease.render = "*" := by decide +kernel

end Range
end SemanticVersioning
