import SemanticVersioning.Range.Expansion
import SemanticVersioning.Version.Reader

/-!
# Reading ranges

A range is written as alternatives, each of which is a possibly empty list of terms:

    range     = segment *( "||" segment )
    segment   = [ term *( term ) ]
    term      = hyphen | compare | operand | tilde | caret
    hyphen    = operand "-" operand
    compare   = ( ">=" | ">" | "=" | "<=" | "<" ) operand
    tilde     = "~" [ ">" ] operand
    caret     = "^" operand
    operand   = [ "v" | "V" ] component [ "." component [ "." component [ qualifier ] ] ]
    component = "x" | "X" | "*" | number

Terms are kept apart by blanks, of which line ends are some; such blanks also stand on both sides of
a hyphen and may stand around the bars. Within a term only spaces and tabs may stand, after a sign
and after the `v`. A term must be followed by a blank, by bars or by the end of the text, or it has
not been read; the five forms are tried in the order given, and no term at all is an empty segment.

Numbers and qualifiers are those of the loose notation of versions. A run of operator characters
that is no operator is refused outright. The blanks around the whole text are skipped, and there is
no limit on its length.
-/

namespace SemanticVersioning
namespace Reader

/-! ## Operands -/

/-- A component of an operand, `none` for a wildcard. -/
def component : Reader (Option Nat) :=
  let wildcard := orElse (literal ['x']) (orElse (literal ['X']) (literal ['*']))
  orElse ((fun _ => none) <$> wildcard) (some <$> number true)

/-- Spaces and tabs. -/
def inlineSpace : Reader Unit := do
  let _ ← charsWhile Text.isInlineSpace

/-- The third component of an operand and its qualifier. -/
def patchPart : Reader (Option Nat × List Identifier × List String) := do
  literal ['.']
  let patch ← component
  let qualifier ← qualifier true
  return (patch, qualifier)

/-- The second component of an operand and what follows it. -/
def minorPart : Reader (Option Nat × Option (Option Nat × List Identifier × List String)) := do
  literal ['.']
  let minor ← component
  let patchPart ← optional patchPart
  return (minor, patchPart)

/-- The extent of an operand. Each part can only follow the one before it. -/
def extent : Reader Extent := do
  let _ ← optional (orElse (literal ['v']) (literal ['V']))
  inlineSpace
  let major ← component
  let minorPart ← optional minorPart
  return .ofComponents major minorPart

/-- An operand with its text. -/
def operand : Reader Operand := do
  let (text, extent) ← spelled extent
  return ⟨String.ofList text, extent⟩

/-! ## Terms -/

/-- The characters of which operators are made, and which are never anything else. -/
def isOperatorChar (c : Char) : Bool :=
  c == '<' || c == '>' || c == '=' || c == '!'

/-- The operator that a token writes, if it is one of the five. -/
def operatorOfToken (token : List Char) : Except (ErrorKind × Option Production) Operator :=
  match token with
  | ['>', '='] => .ok .greaterOrEqual
  | ['>'] => .ok .greater
  | ['='] => .ok .exact
  | ['<', '='] => .ok .lessOrEqual
  | ['<'] => .ok .less
  | token => .error (.unknownOperator (String.ofList token), none)

/-- An operator. -/
def operator : Reader Operator :=
  (charsWhile1 isOperatorChar).checked operatorOfToken

/-- The blanks between terms, at least one. -/
def layout : Reader Unit := do
  let _ ← charsWhile1 Text.isLayout

/-- Two operands with a hyphen between them. -/
def hyphenTerm : Reader (Term Operand) :=
  within .hyphenTerm do
    let lower ← operand
    layout
    literal ['-']
    layout
    let upper ← operand
    return .hyphen lower upper

/-- An operator and its operand. -/
def comparatorTerm : Reader (Term Operand) :=
  within .comparatorTerm do
    let operator ← operator
    inlineSpace
    let operand ← operand
    return .compare operator operand

/-- An operand alone, which demands exactness. -/
def plainTerm : Reader (Term Operand) :=
  within .plainTerm do
    let operand ← operand
    return .compare .exact operand

/-- A tilde, possibly with a `>` after it, and an operand. -/
def tildeTerm : Reader (Term Operand) :=
  within .tildeTerm do
    literal ['~']
    inlineSpace
    let _ ← optional (literal ['>'])
    inlineSpace
    let operand ← operand
    return .tilde operand

/-- A caret and an operand. -/
def caretTerm : Reader (Term Operand) :=
  within .caretTerm do
    literal ['^']
    inlineSpace
    let operand ← operand
    return .caret operand

/-- The end of a term: blanks, bars or the end of the text, none of which belongs to it. -/
def boundary : Reader Unit :=
  lookahead (orElse layout (orElse (literal ['|', '|']) endOfText))

/-- A term that ends at a boundary. -/
def bounded (p : Reader (Term Operand)) : Reader (Term Operand) := do
  let term ← p
  boundary
  return term

/-- A term in one of its five forms. -/
def term : Reader (Term Operand) :=
  orElse (bounded hyphenTerm) <|
  orElse (bounded comparatorTerm) <|
  orElse (bounded plainTerm) <|
  orElse (bounded tildeTerm) (bounded caretTerm)

/-! ## Ranges -/

/-- The bars between alternatives, with blanks around them. -/
def bars : Reader Unit := do
  let _ ← charsWhile Text.isLayout
  literal ['|', '|']
  let _ ← charsWhile Text.isLayout

/-- The terms of one alternative. -/
def segment : Reader (List (Term Operand)) :=
  sepBy layout term

/-- The alternatives of a range. -/
def alternatives : Reader (Alternatives Operand) :=
  Alternatives.mk <$> sepBy1 bars segment

end Reader

/-! ## Whole texts -/

/-- The alternatives that a text writes. -/
def Alternatives.parse (text : String) : Except ParseError (Alternatives Operand) :=
  match Reader.alternatives.run .invalidRange (Text.trim text.toList) with
  | .ok alternatives => .ok alternatives
  | .error (stop, kind) =>
      .error (.ofStop text (Text.leadingBlanks text.toList) (Text.trim text.toList) stop kind)

/-- The range that a text writes. -/
def Range.parse (text : String) (options : Options) : Except ParseError Range := do
  let alternatives ← Alternatives.parse text
  return .ofAlternatives options (alternatives.map (Operand.resolve options))

end SemanticVersioning
