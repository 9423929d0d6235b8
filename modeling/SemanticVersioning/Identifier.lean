/-!
# Pre-release identifiers

An identifier is a number or a text. Numbers are ordered by value, texts by their code points, and
each number stands below each text. The order is that of a sum of two linear orders, so it is
linear and agrees with equality; the instances at the end say so, and lists of identifiers inherit
both from them.

Nothing ties the text of an identifier to the alphabet of the notation: identifiers put together
by hand are ordered and written as they stand.
-/

namespace SemanticVersioning

/-- One of the dot-separated parts of a pre-release. -/
inductive Identifier where
  | numeric (value : Nat)
  | alphanumeric (text : String)
deriving DecidableEq, Hashable, Repr, Inhabited

namespace Identifier

/-- The text of an identifier: the decimal digits of a number, or the text itself. -/
def render : Identifier → String
  | numeric value => value.repr
  | alphanumeric text => text

instance : ToString Identifier := ⟨render⟩

@[simp] theorem render_numeric (value : Nat) : (numeric value).render = value.repr := rfl

@[simp] theorem render_alphanumeric (text : String) : (alphanumeric text).render = text := rfl

/-! ## Order -/

/-- Numbers by value, below all texts; texts by code points. -/
instance : Ord Identifier where
  compare
    | numeric m, numeric n => compare m n
    | numeric _, alphanumeric _ => .lt
    | alphanumeric _, numeric _ => .gt
    | alphanumeric s, alphanumeric t => compare s t

@[simp] theorem compare_numeric (m n : Nat) : compare (numeric m) (numeric n) = compare m n := rfl

@[simp] theorem compare_numeric_alphanumeric (m : Nat) (t : String) :
    compare (numeric m) (alphanumeric t) = .lt := rfl

@[simp] theorem compare_alphanumeric_numeric (s : String) (n : Nat) :
    compare (alphanumeric s) (numeric n) = .gt := rfl

@[simp] theorem compare_alphanumeric (s t : String) :
    compare (alphanumeric s) (alphanumeric t) = compare s t := rfl

private theorem compare_swap (a b : Identifier) : compare a b = (compare b a).swap := by
  cases a <;> cases b
  case numeric.numeric m n => exact Std.OrientedOrd.eq_swap (a := m) (b := n)
  case numeric.alphanumeric => rfl
  case alphanumeric.numeric => rfl
  case alphanumeric.alphanumeric s t => exact Std.OrientedOrd.eq_swap (a := s) (b := t)

private theorem isLE_compare_trans (a b c : Identifier) (hab : (compare a b).isLE)
    (hbc : (compare b c).isLE) : (compare a c).isLE := by
  cases a <;> cases b <;> cases c
  case numeric.numeric.numeric => exact Std.TransOrd.isLE_trans (α := Nat) hab hbc
  case alphanumeric.alphanumeric.alphanumeric =>
    exact Std.TransOrd.isLE_trans (α := String) hab hbc
  all_goals simp_all

instance : Std.TransOrd Identifier where
  eq_swap := compare_swap _ _
  isLE_trans := isLE_compare_trans _ _ _

instance : Std.LawfulEqOrd Identifier where
  compare_self {a} := by
    cases a
    case numeric m => exact Std.ReflOrd.compare_self (a := m)
    case alphanumeric s => exact Std.ReflOrd.compare_self (a := s)
  eq_of_compare {a b} h := by
    cases a <;> cases b
    case numeric.numeric => exact congrArg numeric (Std.LawfulEqOrd.eq_of_compare h)
    case alphanumeric.alphanumeric => exact congrArg alphanumeric (Std.LawfulEqOrd.eq_of_compare h)
    all_goals simp at h

end Identifier
end SemanticVersioning
