import SemanticVersioning.Limits
import SemanticVersioning.Range.Comparator
import SemanticVersioning.Text.Position

/-!
# Ranges as they are written

A range text offers alternatives, each a list of terms that are meant together. A term is a
shorthand for comparators: an operand with an operator, a tilde or a caret, or two operands with a
hyphen between them. An operand need not give a whole version. What matters is how far it goes
(`Extent`) before a component is missing or a wildcard; components after that one mean nothing.

Operands pass through two stages, and terms are generic in them. As written, an operand is its text
and its extent. Resolved, it is the extent alone, and the version of a complete operand remembers
the text and the options with which it was read. Operands are always read loosely.
-/

namespace SemanticVersioning

/-! ## Operands -/

/-- How much of a version an operand gives: nothing, its major number, its major and minor numbers,
or all of it. -/
inductive Extent where
  | any
  | major (major : Nat)
  | minor (major minor : Nat)
  | full (version : Version)
deriving DecidableEq, Repr, Inhabited

namespace Extent

/-- The extent of the components of an operand: the first, then perhaps the second, then perhaps the
third with the pre-release and the build metadata after it. A wildcard is `none`, and ends the
extent as a missing component does. -/
def ofComponents (major : Option Nat)
    (minorPart : Option (Option Nat × Option (Option Nat × List Identifier × List String))) :
    Extent :=
  match major, minorPart with
  | none, _ => any
  | some M, none => .major M
  | some M, some (none, _) => .major M
  | some M, some (some m, none) => .minor M m
  | some M, some (some m, some (none, _)) => .minor M m
  | some M, some (some m, some (some p, preRelease, build)) =>
      full { core := ⟨M, m, p⟩, preRelease, build }

/-- The same extent, with a change made to the version of a complete one. -/
def map (change : Version → Version) : Extent → Extent
  | any => any
  | major M => major M
  | minor M m => minor M m
  | full v => full (change v)

end Extent

/-- An operand as written. -/
structure Operand where
  text : String
  extent : Extent
deriving DecidableEq, Repr, Inhabited

namespace Operand

/-- The version of a complete operand, with its text and the options under which it is read. -/
def version? (operand : Operand) (options : Options) : Option Version :=
  match operand.extent with
  | .full v => some { v with raw := some operand.text, options := options.loosely }
  | .any | .major _ | .minor _ _ => none

/-- The extent of an operand, whose version remembers its text and options and drops its build
metadata. -/
def resolve (options : Options) (operand : Operand) : Extent :=
  operand.extent.map fun v =>
    { v with build := [], raw := some operand.text, options := options.loosely }

/-- An operand resolved through a memo of versions. The memo is offered the text and the version of
each complete operand, unless the text is too long to be a version text, and its answer is used. -/
def resolveM {m : Type → Type} [Monad m] (memo : String → Options → Version → m Version)
    (options : Options) (operand : Operand) : m Extent :=
  match operand.version? options with
  | none => pure (operand.resolve options)
  | some v =>
      if Text.utf8Length operand.text.toList ≤ maxLength then do
        return .full (← memo operand.text options.loosely v).withoutBuild
      else
        return .full v.withoutBuild

/-- Resolving directly is resolving through the memo that hands back what it is offered. -/
theorem resolve_eq {options : Options} {operand : Operand} {v : Version}
    (h : operand.version? options = some v) :
    operand.resolve options = .full v.withoutBuild := by
  obtain ⟨text, extent⟩ := operand
  cases extent with
  | full w =>
    obtain rfl : { w with raw := some text, options := options.loosely } = v := Option.some.inj h
    rfl
  | any => simp [version?] at h
  | major => simp [version?] at h
  | minor => simp [version?] at h

end Operand

/-! ## Terms -/

/-- A shorthand for comparators. -/
inductive Term (α : Type) where
  | compare (operator : Operator) (operand : α)
  | tilde (operand : α)
  | caret (operand : α)
  | hyphen (lower upper : α)
deriving DecidableEq, Repr

namespace Term

variable {α β : Type}

/-- The operands of a term, from left to right. -/
def operands : Term α → List α
  | compare _ a => [a]
  | tilde a => [a]
  | caret a => [a]
  | hyphen a b => [a, b]

/-- The same term with other operands. -/
def map (f : α → β) : Term α → Term β
  | compare op a => compare op (f a)
  | tilde a => tilde (f a)
  | caret a => caret (f a)
  | hyphen a b => hyphen (f a) (f b)

/-- The same term with other operands, which are found from left to right. -/
def mapM {m : Type → Type} [Monad m] (f : α → m β) : Term α → m (Term β)
  | compare op a => return compare op (← f a)
  | tilde a => return tilde (← f a)
  | caret a => return caret (← f a)
  | hyphen a b => do
      let lower ← f a
      let upper ← f b
      return hyphen lower upper

end Term

/-! ## Alternatives -/

/-- The alternatives that a range text offers, each a list of terms that are meant together. -/
structure Alternatives (α : Type) where
  segments : List (List (Term α))
deriving DecidableEq, Repr

namespace Alternatives

variable {α β : Type}

/-- All operands of a range text, from left to right. -/
def operands (alternatives : Alternatives α) : List α :=
  alternatives.segments.flatten.flatMap Term.operands

/-- The same alternatives with other operands. -/
def map (f : α → β) (alternatives : Alternatives α) : Alternatives β :=
  ⟨alternatives.segments.map fun segment => segment.map (Term.map f)⟩

/-- The same alternatives with other operands, which are found from left to right. -/
def mapM {m : Type → Type} [Monad m] (f : α → m β) (alternatives : Alternatives α) :
    m (Alternatives β) :=
  return ⟨← alternatives.segments.mapM fun segment => segment.mapM (Term.mapM f)⟩

end Alternatives
end SemanticVersioning
