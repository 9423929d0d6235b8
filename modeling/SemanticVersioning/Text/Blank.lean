/-!
# Blank characters, and texts without their outer blanks

Three notions of blank space meet in the notations of this library, and each has its own use.

* `isBlank` is the Unicode property `White_Space`. It decides what is stripped from the two ends
  of a text before it is read.
* `isLayout` is space, tab, carriage return and line feed. It separates the terms of a range.
* `isInlineSpace` is space and tab alone. It may stand between an operator and its operand.

A text is stripped at its end first. A text of blanks alone is therefore all trailing blanks: what
is left of it stands at the very start, and `leadingBlanks` of it is empty.
-/

namespace SemanticVersioning
namespace Text

/-! ## Classes of characters -/

/-- The code points with the property `White_Space`, as inclusive intervals in rising order. -/
def whiteSpaceIntervals : List (Nat × Nat) :=
  [(0x0009, 0x000D), (0x0020, 0x0020), (0x0085, 0x0085), (0x00A0, 0x00A0), (0x1680, 0x1680),
   (0x2000, 0x200A), (0x2028, 0x2029), (0x202F, 0x202F), (0x205F, 0x205F), (0x3000, 0x3000)]

/-- Whether a character has the property `White_Space`. -/
def isBlank (c : Char) : Bool :=
  whiteSpaceIntervals.any fun interval => interval.1 ≤ c.toNat && c.toNat ≤ interval.2

/-- Space and tab, the blanks within a line. -/
def isInlineSpace (c : Char) : Bool :=
  c == ' ' || c == '\t'

/-- The blanks that separate the terms of a range: space, tab, carriage return and line feed. -/
def isLayout (c : Char) : Bool :=
  c == ' ' || c == '\t' || c == '\r' || c == '\n'

theorem isLayout_of_isInlineSpace {c : Char} (h : isInlineSpace c = true) : isLayout c = true := by
  simp only [isInlineSpace, Bool.or_eq_true, beq_iff_eq] at h
  rcases h with rfl | rfl <;> rfl

theorem isBlank_of_isLayout {c : Char} (h : isLayout c = true) : isBlank c = true := by
  simp only [isLayout, Bool.or_eq_true, beq_iff_eq] at h
  rcases h with ((rfl | rfl) | rfl) | rfl <;> rfl

/-! ## Stripping the outer blanks -/

/-- A text without the blanks at its end. -/
def trimEnd (s : List Char) : List Char :=
  (s.reverse.dropWhile isBlank).reverse

/-- The blanks in front of the first other character of a text. A text of blanks alone has none,
since it has no such character. -/
def leadingBlanks (s : List Char) : List Char :=
  (trimEnd s).takeWhile isBlank

/-- A text without the blanks at its two ends. -/
def trim (s : List Char) : List Char :=
  (trimEnd s).dropWhile isBlank

/-- The blanks at the end of a text. -/
def trailingBlanks (s : List Char) : List Char :=
  (s.reverse.takeWhile isBlank).reverse

theorem trimEnd_append_trailingBlanks (s : List Char) : trimEnd s ++ trailingBlanks s = s := by
  rw [trimEnd, trailingBlanks, ← List.reverse_append, List.takeWhile_append_dropWhile,
    List.reverse_reverse]

theorem leadingBlanks_append_trim (s : List Char) : leadingBlanks s ++ trim s = trimEnd s :=
  List.takeWhile_append_dropWhile

/-- A text is its leading blanks, its body and its trailing blanks. -/
theorem leadingBlanks_append_trim_append_trailingBlanks (s : List Char) :
    leadingBlanks s ++ trim s ++ trailingBlanks s = s := by
  rw [leadingBlanks_append_trim, trimEnd_append_trailingBlanks]

@[simp] theorem trim_nil : trim [] = [] := rfl

@[simp] theorem leadingBlanks_nil : leadingBlanks [] = [] := rfl

end Text
end SemanticVersioning
