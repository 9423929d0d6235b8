import SemanticVersioning.Range.Reader

/-!
# Requests, and their answers from scratch

What can be asked of the library at once is a `Request`: to read a version or a range, to compare
two versions, or to say whether a range admits a version. Versions are given as such or as texts,
ranges as texts. This module answers each request by reading every text anew; `Cache` and `Engine`
answer the same requests from memory.

Of two faulty texts in one request the first one read is reported. A comparison reads its left side
first, a question of admission reads the range first.
-/

namespace SemanticVersioning

/-- A version, or a text that is still to be read as one. -/
inductive VersionArgument where
  | text (text : String)
  | version (version : Version)
deriving DecidableEq, Repr, Inhabited

/-- The version that an argument stands for. A version stands for itself, whatever the options. -/
def VersionArgument.resolve (argument : VersionArgument) (options : Options) :
    Except ParseError Version :=
  match argument with
  | text t => Version.parse t options
  | version v => .ok v

/-- A question about texts and versions. -/
inductive Request where
  | parse (text : String) (options : Options)
  | parseRange (text : String) (options : Options)
  | compare (a b : VersionArgument) (options : Options)
  | satisfies (version : VersionArgument) (range : String) (options : Options)
deriving DecidableEq, Repr, Inhabited

/-- The answer to a request. -/
inductive Reply where
  | version (result : Except ParseError Version)
  | range (result : Except ParseError Range)
  | ordering (result : Except ParseError Ordering)
  | verdict (result : Except ParseError Bool)
deriving Repr

/-! ## Answers from scratch -/

/-- How two arguments compare. -/
def compareArguments (a b : VersionArgument) (options : Options) : Except ParseError Ordering := do
  let v ← a.resolve options
  let w ← b.resolve options
  return compare v w

/-- How a version compares to an argument, which is read with the options of that version. -/
def Version.compareTo (v : Version) (b : VersionArgument) : Except ParseError Ordering :=
  compareArguments (.version v) b v.options

/-- Whether the range of a text admits what an argument stands for. -/
def satisfiesText (argument : VersionArgument) (rangeText : String) (options : Options) :
    Except ParseError Bool := do
  let range ← Range.parse rangeText options
  let v ← argument.resolve options
  return range.admits v

/-- Whether a range admits what an argument stands for, read with the options of the range. A text
that is no version is not admitted. -/
def Range.test (range : Range) (argument : VersionArgument) : Bool :=
  match argument.resolve range.options with
  | .ok v => range.admits v
  | .error _ => false

/-- The answer to a request, read anew. -/
def Request.answer : Request → Reply
  | parse text options => .version (Version.parse text options)
  | parseRange text options => .range (Range.parse text options)
  | compare a b options => .ordering (compareArguments a b options)
  | satisfies argument rangeText options => .verdict (satisfiesText argument rangeText options)

end SemanticVersioning
