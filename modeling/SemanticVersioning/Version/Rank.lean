import SemanticVersioning.Identifier

/-!
# Rank: the part of a version that decides its precedence

Of a version only the three core numbers and the pre-release take part in comparison, equality and
hashing. They are a type of their own, `Rank`, so that whatever is computed from a rank cannot
depend on the rest of a version.

Ranks are ordered by their cores first. Of two ranks of one core the one without a pre-release is
the higher; two pre-releases are ordered by their first differing identifier, and a pre-release
that continues another is the higher. The order is linear and agrees with equality
(`Std.TransOrd Rank`, `Std.LawfulEqOrd Rank`).
-/

namespace SemanticVersioning

/-! ## Cores -/

/-- The three numbers of a version. -/
structure Core where
  major : Nat
  minor : Nat
  patch : Nat
deriving DecidableEq, Hashable, Repr, Inhabited

namespace Core

/-- The major number counts most, the patch number least. -/
instance : Ord Core where
  compare := compareLex (compareOn major) (compareLex (compareOn minor) (compareOn patch))

theorem compare_def (a b : Core) : compare a b =
    (compare a.major b.major).then ((compare a.minor b.minor).then (compare a.patch b.patch)) :=
  rfl

instance : Std.TransOrd Core :=
  inferInstanceAs (Std.TransCmp
    (compareLex (compareOn major) (compareLex (compareOn minor) (compareOn patch))))

instance : Std.LawfulEqOrd Core where
  eq_of_compare {a b} h := by
    simp only [compare_def, Ordering.then_eq_eq, Std.LawfulEqOrd.compare_eq_iff_eq] at h
    cases a
    cases b
    simp_all

end Core

/-! ## Pre-releases -/

namespace PreRelease

/-- The order of pre-releases of one core. The empty pre-release is that of the release itself and
stands above all others. -/
def compare : List Identifier → List Identifier → Ordering
  | [], [] => .eq
  | [], _ :: _ => .gt
  | _ :: _, [] => .lt
  | i :: is, j :: js => Ord.compare (i :: is) (j :: js)

theorem compare_of_ne_nil {is js : List Identifier} (hi : is ≠ []) (hj : js ≠ []) :
    compare is js = Ord.compare is js := by
  cases is
  case nil => exact absurd rfl hi
  case cons =>
    cases js
    case nil => exact absurd rfl hj
    case cons => rfl

private theorem compare_swap (is js : List Identifier) : compare is js = (compare js is).swap := by
  cases is <;> cases js
  case cons.cons i is j js => exact Std.OrientedOrd.eq_swap (a := i :: is) (b := j :: js)
  all_goals rfl

private theorem isLE_compare_trans (is js ks : List Identifier) (hij : (compare is js).isLE)
    (hjk : (compare js ks).isLE) : (compare is ks).isLE := by
  cases is <;> cases js <;> cases ks
  case cons.cons.cons => exact Std.TransOrd.isLE_trans (α := List Identifier) hij hjk
  all_goals simp_all [compare]

instance : Std.TransCmp compare where
  eq_swap := compare_swap _ _
  isLE_trans := isLE_compare_trans _ _ _

instance : Std.LawfulEqCmp compare where
  eq_of_compare {is js} h := by
    cases is <;> cases js
    case nil.nil => rfl
    case cons.cons => exact Std.LawfulEqOrd.eq_of_compare h
    all_goals simp [compare] at h

end PreRelease

/-! ## Ranks -/

/-- The core and the pre-release of a version. A release has no pre-release identifiers. -/
structure Rank where
  core : Core
  preRelease : List Identifier := []
deriving DecidableEq, Hashable, Repr, Inhabited

namespace Rank

/-- Precedence: cores first, then pre-releases. -/
instance : Ord Rank where
  compare := compareLex (compareOn core) fun a b => PreRelease.compare a.preRelease b.preRelease

theorem compare_def (a b : Rank) : compare a b =
    (compare a.core b.core).then (PreRelease.compare a.preRelease b.preRelease) :=
  rfl

private instance : Std.TransCmp fun a b : Rank =>
    PreRelease.compare a.preRelease b.preRelease where
  eq_swap {a b} :=
    @Std.OrientedCmp.eq_swap _ PreRelease.compare _ a.preRelease b.preRelease
  isLE_trans {a b c} :=
    @Std.TransCmp.isLE_trans _ PreRelease.compare _ a.preRelease b.preRelease c.preRelease

instance : Std.TransOrd Rank :=
  inferInstanceAs (Std.TransCmp
    (compareLex (compareOn core) fun a b => PreRelease.compare a.preRelease b.preRelease))

instance : Std.LawfulEqOrd Rank where
  eq_of_compare {a b} h := by
    simp only [compare_def, Ordering.then_eq_eq, Std.LawfulEqOrd.compare_eq_iff_eq] at h
    obtain ⟨core, is⟩ := a
    obtain ⟨core', js⟩ := b
    obtain ⟨hcore, hpreRelease⟩ := h
    obtain rfl : core = core' := hcore
    obtain rfl : is = js := Std.LawfulEqCmp.eq_of_compare hpreRelease
    rfl

/-- Whether a rank is that of a pre-release. -/
def isPrerelease (r : Rank) : Bool :=
  !r.preRelease.isEmpty

end Rank
end SemanticVersioning
