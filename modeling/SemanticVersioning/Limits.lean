/-!
# The limits of the notations

Numbers and texts are unbounded here, and each limit of the notations is a constant of its own. A
number is admitted if a double-precision floating-point number holds it and all smaller ones
exactly, which is what other readers of the same notations rely on.
-/

namespace SemanticVersioning

/-- The largest admitted number, `2 ^ 53 - 1`. -/
def maxSafeInteger : Nat := 9007199254740991

/-- The largest admitted length of a version text, in bytes. -/
def maxLength : Nat := 256

end SemanticVersioning
