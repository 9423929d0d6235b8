/-!
# Positions in a text, counted in UTF-8 bytes

Lengths and offsets of this library are byte counts of the UTF-8 encoding, while texts are lists
of characters. `utf8Length` is the byte count of a text, `takeBytes` the longest beginning of a
text that fits in a number of bytes (so that a cut never falls inside a character), and `location`
turns a byte offset into a line and a column, both counted from zero.

A text can only be cut where a character begins or the text ends (`dropBytes?`). `locate?` finds the
line and the column by two such cuts; where these are possible, it finds the location
(`locate?_append`).
-/

namespace SemanticVersioning
namespace Text

/-! ## Lengths -/

/-- The number of bytes of a text in UTF-8. -/
def utf8Length : List Char → Nat
  | [] => 0
  | c :: s => c.utf8Size + utf8Length s

@[simp] theorem utf8Length_nil : utf8Length [] = 0 := rfl

@[simp] theorem utf8Length_cons (c : Char) (s : List Char) :
    utf8Length (c :: s) = c.utf8Size + utf8Length s := rfl

@[simp] theorem utf8Length_append (s t : List Char) :
    utf8Length (s ++ t) = utf8Length s + utf8Length t := by
  induction s with
  | nil => exact (Nat.zero_add _).symm
  | cons c s ih => rw [List.cons_append, utf8Length_cons, utf8Length_cons, ih, Nat.add_assoc]

@[simp] theorem utf8Length_reverse (s : List Char) : utf8Length s.reverse = utf8Length s := by
  induction s with
  | nil => rfl
  | cons c s ih =>
    rw [List.reverse_cons, utf8Length_append, ih, utf8Length_cons, utf8Length_cons, utf8Length_nil]
    omega

theorem length_le_utf8Length (s : List Char) : s.length ≤ utf8Length s := by
  induction s with
  | nil => exact Nat.le_refl 0
  | cons c s ih =>
    have hpos := c.utf8Size_pos
    simp only [List.length_cons, utf8Length_cons]
    omega

/-! ## Cutting at a byte count -/

/-- The longest beginning of a text that takes at most `n` bytes. -/
def takeBytes (n : Nat) : List Char → List Char
  | [] => []
  | c :: s => if c.utf8Size ≤ n then c :: takeBytes (n - c.utf8Size) s else []

@[simp] theorem takeBytes_nil (n : Nat) : takeBytes n [] = [] := rfl

theorem utf8Length_takeBytes_le (n : Nat) (s : List Char) : utf8Length (takeBytes n s) ≤ n := by
  induction s generalizing n with
  | nil => exact Nat.zero_le n
  | cons c s ih =>
    rw [takeBytes]
    split
    · have hrest := ih (n - c.utf8Size)
      rw [utf8Length_cons]
      omega
    · exact Nat.zero_le n

/-- At a place between two characters the cut is exact. -/
@[simp] theorem takeBytes_append (s t : List Char) : takeBytes (utf8Length s) (s ++ t) = s := by
  induction s with
  | nil =>
    cases t with
    | nil => rfl
    | cons c t =>
      have hpos := c.utf8Size_pos
      rw [List.nil_append, utf8Length_nil, takeBytes, if_neg (by omega)]
  | cons c s ih =>
    rw [List.cons_append, takeBytes, utf8Length_cons, if_pos (Nat.le_add_right _ _),
      Nat.add_sub_cancel_left, ih]

theorem takeBytes_isPrefix (n : Nat) (s : List Char) : takeBytes n s <+: s := by
  induction s generalizing n with
  | nil => exact List.prefix_refl _
  | cons c s ih =>
    rw [takeBytes]
    split
    · exact (List.cons_prefix_cons).2 ⟨rfl, ih _⟩
    · exact List.nil_prefix

/-- What is left of a text after its first `n` bytes. There is no such text if the cut falls inside
a character or beyond the end. -/
def dropBytes? (n : Nat) (s : List Char) : Option (List Char) :=
  if n = 0 then
    some s
  else
    match s with
    | [] => none
    | c :: s => if c.utf8Size ≤ n then dropBytes? (n - c.utf8Size) s else none

@[simp] theorem dropBytes?_append (s t : List Char) :
    dropBytes? (utf8Length s) (s ++ t) = some t := by
  induction s with
  | nil => rw [utf8Length_nil, dropBytes?.eq_def, if_pos rfl, List.nil_append]
  | cons c s ih =>
    have hpos := c.utf8Size_pos
    rw [dropBytes?.eq_def, utf8Length_cons, if_neg (by omega)]
    simp only [List.cons_append, Nat.le_add_right, if_true, Nat.add_sub_cancel_left, ih]

/-! ## Lines and columns -/

/-- The number of line feeds in a text: the index of the line on which the text after it starts. -/
def lineOf (before : List Char) : Nat :=
  before.count '\n'

/-- The number of bytes after the last line feed of a text: the column at which the text after it
starts. -/
def columnOf (before : List Char) : Nat :=
  utf8Length (before.reverse.takeWhile (· != '\n'))

/-- The line and the column of a byte offset in a text. -/
def location (s : List Char) (offset : Nat) : Nat × Nat :=
  (lineOf (takeBytes offset s), columnOf (takeBytes offset s))

/-- The line and the column of a byte offset in a text, found by cutting the text. One cut is where
the line begins, after the last line feed before the offset, and the other is at the offset. The
column is how much less is left at the second cut. There is none if a cut is not possible. -/
def locate? (s : List Char) (offset : Nat) : Option (Nat × Nat) :=
  let before := takeBytes offset s
  match dropBytes? (offset - columnOf before) s, dropBytes? offset s with
  | some line, some rest =>
      if utf8Length rest ≤ utf8Length line then
        some (lineOf before, utf8Length line - utf8Length rest)
      else
        none
  | _, _ => none

/-- The line on which the text after `before` starts: what stands after the last line feed. -/
theorem exists_line (before : List Char) : ∃ start line, before = start ++ line ∧
    '\n' ∉ line ∧ (start = [] ∨ ∃ lines, start = lines ++ ['\n']) ∧
      columnOf before = utf8Length line := by
  refine ⟨(before.reverse.dropWhile (· != '\n')).reverse,
    (before.reverse.takeWhile (· != '\n')).reverse, ?_, ?_, ?_, ?_⟩
  · rw [← List.reverse_append, List.takeWhile_append_dropWhile, List.reverse_reverse]
  · rw [List.mem_reverse]
    intro h
    have hne := List.all_eq_true.1 List.all_takeWhile _ h
    exact absurd hne (by decide)
  · cases hstart : before.reverse.dropWhile (· != '\n') with
    | nil => exact Or.inl rfl
    | cons c lines =>
      have hc := List.head?_dropWhile_not (· != '\n') before.reverse
      rw [hstart, List.head?_cons] at hc
      have hfeed : c = '\n' := by simpa using hc
      exact Or.inr ⟨lines.reverse, by rw [hfeed, List.reverse_cons]⟩
  · rw [columnOf, utf8Length_reverse]

/-- At a place between two characters both cuts are possible, and they find the location. -/
theorem locate?_append (before after : List Char) :
    locate? (before ++ after) (utf8Length before) =
      some (location (before ++ after) (utf8Length before)) := by
  obtain ⟨start, line, hsplit, -, -, hcolumn⟩ := exists_line before
  have hstart : utf8Length before - utf8Length line = utf8Length start := by
    rw [hsplit, utf8Length_append, Nat.add_sub_cancel]
  have hline : dropBytes? (utf8Length start) (before ++ after) = some (line ++ after) := by
    rw [hsplit, List.append_assoc, dropBytes?_append]
  simp only [locate?, location, takeBytes_append, dropBytes?_append, hstart, hline,
    utf8Length_append, Nat.le_add_left, if_true, Nat.add_sub_cancel, hcolumn]

end Text
end SemanticVersioning
