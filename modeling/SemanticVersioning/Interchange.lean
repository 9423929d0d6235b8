import SemanticVersioning.Numeral
import SemanticVersioning.Range.Printer
import SemanticVersioning.Range.Reader

/-!
# Versions and ranges in structured data

In structured data a version or a range is a text, its normal form when written and any text of the
default notation when read. Other data cannot be read as either, and the error says what stood there
and what was expected.
-/

namespace SemanticVersioning

/-! ## Data -/

/-- An item of structured data, as far as readers of texts distinguish it. -/
inductive Datum where
  | null
  | boolean (value : Bool)
  | number (numeral : Numeral)
  | text (text : String)
  | sequence
  | mapping
deriving DecidableEq, Repr, Inhabited

namespace Datum

/-- What an error calls an item. -/
def description : Datum → String
  | null => "null"
  | boolean value => "boolean `" ++ (if value then "true" else "false") ++ "`"
  | number numeral =>
      (if numeral.isInteger then "integer `" else "floating point `") ++ numeral.render ++ "`"
  | text _ => "string"
  | sequence => "sequence"
  | mapping => "map"

end Datum

/-! ## Reading and writing -/

/-- What a reader of structured data expects to find. -/
inductive Expectation where
  | version
  | range
deriving DecidableEq, Repr, Inhabited

/-- What an error says was expected. -/
def Expectation.description : Expectation → String
  | version => "a semver version as a string"
  | range => "a semver range as a string"

/-- Why an item of structured data could not be read. -/
inductive DatumError where
  | unexpected (datum : Datum) (expected : Expectation)
  | invalid (error : ParseError)
deriving DecidableEq, Repr

/-- The sentence that reports why an item could not be read. -/
def DatumError.message : DatumError → String
  | unexpected datum expected =>
      "invalid type: " ++ datum.description ++ ", expected " ++ expected.description
  | invalid error => error.message

/-- The item that stands for a version. -/
def Version.toDatum (v : Version) : Datum :=
  .text v.render

/-- The item that stands for a range. -/
def Range.toDatum (range : Range) : Datum :=
  .text range.render

/-- The version that an item stands for, in the strict notation. -/
def Version.ofDatum : Datum → Except DatumError Version
  | .text t => (Version.parse t {}).mapError .invalid
  | datum => .error (.unexpected datum .version)

/-- The range that an item stands for, with the default options. -/
def Range.ofDatum : Datum → Except DatumError Range
  | .text t => (Range.parse t {}).mapError .invalid
  | datum => .error (.unexpected datum .range)

end SemanticVersioning
