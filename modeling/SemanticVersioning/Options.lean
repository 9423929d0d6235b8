/-!
# Options of reading and matching

Two independent flags accompany each text that is read. They are kept in what was read: a range
applies its own flag on pre-releases when it is asked about a version.
-/

namespace SemanticVersioning

/-- How strictly a text is read, and whether a range admits all pre-releases. -/
structure Options where
  /-- Read versions loosely: a leading `v` or `=` and outer blanks are skipped, leading zeros are
  accepted, and the dash before a pre-release may be missing. -/
  loose : Bool := false
  /-- Let a range admit a pre-release although none of its comparators names a pre-release of the
  same core. -/
  includePrerelease : Bool := false
deriving DecidableEq, Hashable, Repr, Inhabited

namespace Options

/-- The same options, read loosely. -/
def loosely (options : Options) : Options :=
  { options with loose := true }

@[simp] theorem loose_loosely (options : Options) : options.loosely.loose = true := rfl

@[simp] theorem includePrerelease_loosely (options : Options) :
    options.loosely.includePrerelease = options.includePrerelease := rfl

@[simp] theorem loosely_loosely (options : Options) : options.loosely.loosely = options.loosely :=
  rfl

end Options
end SemanticVersioning
