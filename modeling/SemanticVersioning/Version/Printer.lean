import SemanticVersioning.Version.Basic

/-!
# The text of a version

A version is written as its three numbers joined by points, then, if it is a pre-release, a dash
and its identifiers joined by points, then, if it has build metadata, a plus sign and that metadata
joined by points. The text it was read from plays no part, so this is the normal form of a version:
two texts of one version are written alike.
-/

namespace SemanticVersioning

/-- The three numbers, joined by points. -/
def Core.render (core : Core) : String :=
  ".".intercalate [core.major.repr, core.minor.repr, core.patch.repr]

namespace Version

/-- Parts joined by points after a mark, or nothing at all if there are no parts. -/
def renderParts (mark : String) : List String → String
  | [] => ""
  | part :: parts => mark ++ ".".intercalate (part :: parts)

@[simp] theorem renderParts_nil (mark : String) : renderParts mark [] = "" := rfl

/-- The text of a version. -/
def render (v : Version) : String :=
  v.core.render ++ renderParts "-" (v.preRelease.map Identifier.render) ++ renderParts "+" v.build

instance : ToString Version := ⟨render⟩

theorem render_withoutBuild (v : Version) : v.withoutBuild.render =
    v.core.render ++ renderParts "-" (v.preRelease.map Identifier.render) := by
  simp [render, withoutBuild]

end Version
end SemanticVersioning
