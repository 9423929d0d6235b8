import SemanticVersioning.Reader.Basic
import SemanticVersioning.Text.Blank
import SemanticVersioning.Version.Basic

/-!
# Reading versions

A version is written as a core, an optional pre-release and optional build metadata:

    version     = core [ pre-release ] [ build ]
    core        = number "." number "." number
    pre-release = "-" identifier *( "." identifier )
    build       = "+" word *( "." word )

A word is a run of letters, digits and dashes. As an identifier it is numeric if it is all digits.
Numbers, and numeric identifiers with them, are at most `maxSafeInteger`; a larger one is refused
with its digits, wherever it stands. Each class of characters is ASCII alone.

The *strict* notation has no leading zeros. In the core a number ends after a leading `0`, so that
what follows is left over; a numeric identifier with a leading zero is refused. The *loose* notation
takes any run of digits as a number, lets the dash before a pre-release be missing, and skips the
blanks around the text and a run of `v`, `V`, `=`, space and tab before the core.

Whether a text is too long is decided on the text as given, blanks included, before it is read.
-/

namespace SemanticVersioning
namespace Reader

/-! ## Numbers -/

/-- The digits that begin with a digit other than zero, or a single zero. -/
def strictDigits : Reader (List Char) where
  apply
    | '0' :: rest => .read ['0'] rest
    | s => charsWhile1 Char.isDigit s

/-- The digits of a number of a core. -/
def digits (loose : Bool) : Reader (List Char) :=
  if loose then charsWhile1 Char.isDigit else strictDigits

/-- The value of a run of digits, which must be a safe integer. -/
def safeValue (ds : List Char) : Except (ErrorKind × Option Production) Nat :=
  if Nat.ofDigitChars 10 ds 0 ≤ maxSafeInteger then
    .ok (Nat.ofDigitChars 10 ds 0)
  else
    .error (.numericOverflow (String.ofList ds), none)

/-- A number of a core. -/
def number (loose : Bool) : Reader Nat :=
  (digits loose).checked safeValue

/-- A core. -/
def core (loose : Bool) : Reader Core :=
  within .versionCore do
    let major ← number loose
    literal ['.']
    let minor ← number loose
    literal ['.']
    let patch ← number loose
    return ⟨major, minor, patch⟩

/-! ## Pre-releases and build metadata -/

/-- The characters of words. -/
def isWordChar (c : Char) : Bool :=
  c.isAlphanum || c == '-'

/-- A part of a pre-release or of build metadata. -/
def word : Reader (List Char) :=
  charsWhile1 isWordChar

/-- The identifier that a word stands for. In the strict notation a numeric identifier of more than
one digit does not begin with a zero. -/
def identifierOfWord (loose : Bool) (w : List Char) :
    Except (ErrorKind × Option Production) Identifier :=
  if w.all Char.isDigit then
    if !loose && w.length > 1 && w.head? == some '0' then
      .error (.invalidVersion, some .numericIdentifier)
    else
      (safeValue w).map .numeric
  else
    .ok (.alphanumeric (String.ofList w))

/-- A part of a pre-release. -/
def identifier (loose : Bool) : Reader Identifier :=
  word.checked (identifierOfWord loose)

/-- The dash before a pre-release, which may be missing in the loose notation. -/
def dash (loose : Bool) : Reader Unit :=
  if loose then do
    let _ ← optional (literal ['-'])
  else
    literal ['-']

/-- A pre-release with its dash. -/
def preRelease (loose : Bool) : Reader (List Identifier) := do
  dash loose
  within .preRelease (sepBy1 (literal ['.']) (identifier loose))

/-- Build metadata with its plus sign. -/
def buildMetadata : Reader (List String) :=
  within .buildMetadata do
    literal ['+']
    sepBy1 (literal ['.']) (String.ofList <$> word)

/-- What may follow a core: a pre-release and build metadata, both optional. -/
def qualifier (loose : Bool) : Reader (List Identifier × List String) := do
  let pre ← optional (preRelease loose)
  let build ← optional buildMetadata
  return (pre.getD [], build.getD [])

/-! ## Versions -/

/-- The characters that the loose notation skips before a core. -/
def isLeader (c : Char) : Bool :=
  c == 'v' || c == 'V' || c == '=' || Text.isInlineSpace c

/-- What is skipped before a core. -/
def leaders (loose : Bool) : Reader Unit :=
  if loose then do
    let _ ← charsWhile isLeader
  else
    pure ()

/-- A version, in the strict or the loose notation. -/
def version (loose : Bool) : Reader Version := do
  leaders loose
  let core ← core loose
  let (preRelease, build) ← qualifier loose
  return { core, preRelease, build }

end Reader

/-! ## Whole texts -/

namespace Version

/-- The error of a text with more than `maxLength` bytes. It spans the text from the last character
boundary within that length. -/
def excess (text : String) : ParseError where
  input := text
  offset := Text.utf8Length (Text.takeBytes maxLength text.toList)
  spanLength :=
    Text.utf8Length text.toList - Text.utf8Length (Text.takeBytes maxLength text.toList)
  production := none
  kind := .tooLong

/-- The part of a text that is read as a version: all of it in the strict notation, and what stands
between the outer blanks in the loose notation. -/
def body (loose : Bool) (s : List Char) : List Char :=
  if loose then Text.trim s else s

/-- The part of a text before its body. -/
def beforeBody (loose : Bool) (s : List Char) : List Char :=
  if loose then Text.leadingBlanks s else []

/-- The version that a text writes. It remembers the text and the options. -/
def parse (text : String) (options : Options) : Except ParseError Version :=
  if Text.utf8Length text.toList > maxLength then
    .error (excess text)
  else
    match (Reader.version options.loose).run .invalidVersion (body options.loose text.toList) with
    | .ok v => .ok { v with raw := some text, options }
    | .error (stop, kind) =>
        .error (.ofStop text (beforeBody options.loose text.toList)
          (body options.loose text.toList) stop kind)

end Version
end SemanticVersioning
