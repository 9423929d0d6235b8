import SemanticVersioning.Limits
import SemanticVersioning.Text.Position

/-!
# Why a text was refused

A refusal is a `ParseError`: the cause (`ErrorKind`), the part of the notation that was being read
(`Production`, if one was), the whole text, and the bytes of it that the cause is about. Nearly all
errors point at a place and span no bytes. Only a text that is too long spans what is in excess.

Causes and productions carry data alone. Their wording stands here too, one function for each form
in which a report shows them: `message`, `code` and `help`.
-/

namespace SemanticVersioning

/-! ## Causes -/

/-- What is wrong with a text. -/
inductive ErrorKind where
  /-- A version text has more than `maxLength` bytes. -/
  | tooLong
  /-- The text is not a version. -/
  | invalidVersion
  /-- A number with these digits exceeds `maxSafeInteger`. -/
  | numericOverflow (digits : String)
  /-- The text is not a range. -/
  | invalidRange
  /-- A run of operator characters that is not an operator. -/
  | unknownOperator (token : String)
  /-- The text ended although its reader had asked for more. The readers of this library are given
  whole texts and never say so. -/
  | incompleteInput
deriving DecidableEq, Repr, Inhabited

namespace ErrorKind

/-- The sentence that reports a cause. -/
def message : ErrorKind → String
  | tooLong => "Semver string can't be longer than " ++ maxLength.repr ++ " characters."
  | invalidVersion => "Invalid version format."
  | numericOverflow digits =>
      "Numeric component " ++ digits ++
        " is larger than JavaScript's Number.MAX_SAFE_INTEGER (" ++ maxSafeInteger.repr ++ ")."
  | invalidRange => "Invalid range format."
  | unknownOperator token => "Unknown comparator operator `" ++ token ++ "`."
  | incompleteInput => "Incomplete input to semver parser."

/-- The code of a cause in diagnostics. -/
def code : ErrorKind → String
  | tooLong => "semver_engine::too_long"
  | invalidVersion => "semver_engine::invalid_version"
  | numericOverflow _ => "semver_engine::numeric_overflow"
  | invalidRange => "semver_engine::invalid_range"
  | unknownOperator _ => "semver_engine::invalid_operator"
  | incompleteInput => "semver_engine::incomplete_input"

/-- Advice on how to mend a text, for the causes that have any. -/
def help : ErrorKind → Option String
  | invalidVersion => some "expected major.minor.patch[-prerelease][+build], e.g. 1.2.3-beta.1"
  | invalidRange => some "ranges look like `^1.2.3`, `>=1.0.0 <2.0.0` or `1.x || 2.x`"
  | unknownOperator _ => some "valid operators are <, <=, >, >= and ="
  | tooLong | numericOverflow _ | incompleteInput => none

/-- The part of the text that a cause quotes. -/
def payload : ErrorKind → Option String
  | numericOverflow digits => some digits
  | unknownOperator token => some token
  | tooLong | invalidVersion | invalidRange | incompleteInput => none

end ErrorKind

/-! ## Productions -/

/-- The parts of the notations that a report can name. -/
inductive Production where
  | versionCore
  | preRelease
  | numericIdentifier
  | buildMetadata
  | comparatorTerm
  | plainTerm
  | tildeTerm
  | caretTerm
  | hyphenTerm
deriving DecidableEq, Repr, Inhabited

/-- The name of a production in a report. -/
def Production.name : Production → String
  | versionCore => "version core"
  | preRelease => "pre-release version"
  | numericIdentifier => "numeric pre-release identifier without leading zeros"
  | buildMetadata => "build metadata"
  | comparatorTerm => "operation range (ex: >= 1.2.3)"
  | plainTerm => "plain version range (ex: 1.2)"
  | tildeTerm => "tilde version range (ex: ~1.2.3)"
  | caretTerm => "caret version range (ex: ^1.2.3)"
  | hyphenTerm => "hyphenated version range (ex: 1.2 - 2)"

/-! ## Errors -/

/-- A refusal of a text. Offset and span are counted in bytes of the whole text. -/
structure ParseError where
  input : String
  offset : Nat
  spanLength : Nat
  production : Option Production
  kind : ErrorKind
deriving DecidableEq, Repr, Inhabited

namespace ParseError

/-- The sentence that reports an error is that of its cause. -/
def message (e : ParseError) : String :=
  e.kind.message

/-- The code of an error is that of its cause. -/
def code (e : ParseError) : String :=
  e.kind.code

/-- Advice on an error: the production that was being read, or else the advice on the cause. -/
def help (e : ParseError) : Option String :=
  match e.production with
  | some production => some ("while parsing " ++ production.name)
  | none => e.kind.help

/-- The line and the column at which an error stands, both counted from zero. -/
def location (e : ParseError) : Nat × Nat :=
  Text.location e.input.toList e.offset

/-- The line and the column as they are found by cutting the text, if it can be cut where the error
stands. -/
def location? (e : ParseError) : Option (Nat × Nat) :=
  Text.locate? e.input.toList e.offset

/-- The places that a report marks, each with its label, offset and length. -/
def labels (e : ParseError) : List (String × Nat × Nat) :=
  [("here", e.offset, e.spanLength)]

end ParseError
end SemanticVersioning
