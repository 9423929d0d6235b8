import SemanticVersioning.Proofs.Text.ByteOrder
import SemanticVersioning.Version.Basic

/-!
# The rule of precedence

The order of versions is defined through comparisons that answer with an `Ordering`. Here the rule
is said as relations: when does a version stand below another?

* `Identifier.Precedes`: numbers by value, texts by their bytes, a number below each text.
* `Identifier.ListPrecedes`: the first identifiers that differ decide, and of two lists of which one
  continues the other the shorter one is the lower.
* `PreRelease.Precedes`: a pre-release stands below the release, which has no identifiers.
* `Core.Precedes`: the numbers of the core, from the major one on.
* `Version.Precedes`: the cores first, then the pre-releases.

Each comparison is exact for its relation (`compare_eq_lt_iff`, in each of these namespaces), and
`Version.precedence_linear` has all of what makes the order one of versions.
-/

namespace SemanticVersioning

open Text

/-! ## Identifiers -/

namespace Identifier

/-- The rule for two identifiers. -/
inductive Precedes : Identifier → Identifier → Prop
  | numeric {m n : Nat} : m < n → Precedes (numeric m) (numeric n)
  | kind (n : Nat) (t : String) : Precedes (numeric n) (alphanumeric t)
  | text {s t : String} : bytes s < bytes t → Precedes (alphanumeric s) (alphanumeric t)

theorem compare_eq_lt_iff {i j : Identifier} : compare i j = .lt ↔ i.Precedes j := by
  constructor
  · intro h
    cases i <;> cases j
    case numeric.numeric m n => exact .numeric (Nat.compare_eq_lt.1 h)
    case numeric.alphanumeric n t => exact .kind n t
    case alphanumeric.numeric => exact nomatch h
    case alphanumeric.alphanumeric s t => exact .text (compare_eq_lt_iff_bytes_lt.1 h)
  · intro h
    cases h with
    | numeric h => exact Nat.compare_eq_lt.2 h
    | kind => rfl
    | text h => exact compare_eq_lt_iff_bytes_lt.2 h

/-- The rule for two lists of identifiers. -/
inductive ListPrecedes : List Identifier → List Identifier → Prop
  | differ (common : List Identifier) {i j : Identifier} (is js : List Identifier) :
      i.Precedes j → ListPrecedes (common ++ i :: is) (common ++ j :: js)
  | continued (is : List Identifier) (j : Identifier) (js : List Identifier) :
      ListPrecedes is (is ++ j :: js)

theorem ListPrecedes.cons (i : Identifier) {is js : List Identifier} (h : ListPrecedes is js) :
    ListPrecedes (i :: is) (i :: js) := by
  cases h with
  | differ common is js hij => exact .differ (i :: common) is js hij
  | continued _ j js => exact .continued (i :: is) j js

theorem compare_append_append (common is js : List Identifier) :
    compare (common ++ is) (common ++ js) = compare is js := by
  induction common with
  | nil => rfl
  | cons i common ih =>
    rw [List.cons_append, List.cons_append, List.compare_cons_cons, Std.ReflOrd.compare_self, ih]
    rfl

theorem compare_list_eq_lt_iff {is js : List Identifier} :
    compare is js = .lt ↔ ListPrecedes is js := by
  constructor
  · intro h
    induction is generalizing js with
    | nil =>
      cases js with
      | nil => exact nomatch h
      | cons j js => exact .continued [] j js
    | cons i is ih =>
      cases js with
      | nil => exact nomatch h
      | cons j js =>
        rw [List.compare_cons_cons] at h
        rcases Ordering.then_eq_lt.1 h with hij | ⟨hij, hlist⟩
        · exact .differ [] is js (compare_eq_lt_iff.1 hij)
        · obtain rfl := Std.LawfulEqOrd.eq_of_compare hij
          exact (ih hlist).cons i
  · intro h
    cases h with
    | differ common is js hij =>
      rw [compare_append_append, List.compare_cons_cons, compare_eq_lt_iff.2 hij]
      rfl
    | continued is j js =>
      have hnil := compare_append_append is [] (j :: js)
      rw [List.append_nil] at hnil
      rw [hnil]
      rfl

end Identifier

/-! ## Pre-releases and cores -/

/-- The rule for the pre-releases of one core. The release has no identifiers. -/
inductive PreRelease.Precedes : List Identifier → List Identifier → Prop
  | release {is : List Identifier} : is ≠ [] → Precedes is []
  | preRelease {is js : List Identifier} : is ≠ [] → js ≠ [] → Identifier.ListPrecedes is js →
      Precedes is js

theorem PreRelease.compare_eq_lt_iff {is js : List Identifier} :
    compare is js = .lt ↔ Precedes is js := by
  constructor
  · intro h
    by_cases hi : is = []
    · subst hi
      cases js <;> exact nomatch h
    · by_cases hj : js = []
      · subst hj
        exact .release hi
      · rw [compare_of_ne_nil hi hj] at h
        exact .preRelease hi hj (Identifier.compare_list_eq_lt_iff.1 h)
  · intro h
    cases h with
    | release hi =>
      cases is with
      | nil => exact absurd rfl hi
      | cons i is => rfl
    | preRelease hi hj h =>
      rw [compare_of_ne_nil hi hj]
      exact Identifier.compare_list_eq_lt_iff.2 h

/-- The rule for cores. -/
def Core.Precedes (a b : Core) : Prop :=
  a.major < b.major ∨ a.major = b.major ∧
    (a.minor < b.minor ∨ a.minor = b.minor ∧ a.patch < b.patch)

theorem Core.compare_eq_lt_iff {a b : Core} : compare a b = .lt ↔ a.major < b.major ∨
    a.major = b.major ∧ (a.minor < b.minor ∨ a.minor = b.minor ∧ a.patch < b.patch) := by
  rw [compare_def, Ordering.then_eq_lt, Ordering.then_eq_lt]
  simp only [Nat.compare_eq_lt, Nat.compare_eq_eq]

/-! ## Versions -/

namespace Version

/-- The rule for versions. -/
def Precedes (v w : Version) : Prop :=
  v.core.Precedes w.core ∨
    v.core = w.core ∧ PreRelease.Precedes v.preRelease w.preRelease

theorem compare_eq_lt_iff {v w : Version} : compare v w = .lt ↔ v.Precedes w := by
  rw [compare_def, Rank.compare_def, Ordering.then_eq_lt, Std.LawfulEqOrd.compare_eq_iff_eq,
    Core.compare_eq_lt_iff, PreRelease.compare_eq_lt_iff]
  exact Iff.rfl

/-- A version not below another one has no lower core. -/
theorem core_not_lt_of_isGE {v w : Version} (h : (compare v w).isGE = true) :
    ¬ compare v.core w.core = .lt := by
  intro hcore
  refine Ordering.isGE_iff_ne_lt.1 h ?_
  rw [compare_def, Rank.compare_def]
  exact Ordering.then_eq_lt.2 (Or.inl hcore)

theorem samePrecedence_iff_core_preRelease {v w : Version} :
    v.samePrecedence w = true ↔ v.core = w.core ∧ v.preRelease = w.preRelease := by
  rw [samePrecedence_iff, Rank.mk.injEq]

theorem hashInputs_eq_iff {v w : Version} :
    v.hashInputs = w.hashInputs ↔ v.samePrecedence w = true :=
  Rank.hashInputs_inj.trans samePrecedence_iff.symm

/-- From two steps that do not fall comes one, which rises if one of the two does. -/
theorem compare_eq_lt_of_isLE {a b c : Version} (hab : (compare a b).isLE = true)
    (hbc : (compare b c).isLE = true) (hlt : compare a b = .lt ∨ compare b c = .lt) :
    compare a c = .lt := by
  rcases hlt with hlt | hlt
  · exact Std.TransCmp.lt_of_lt_of_isLE hlt hbc
  · exact Std.TransCmp.lt_of_isLE_of_lt hab hlt

/-- **Precedence is a linear order of what versions are.**  Comparing two versions the other way
round turns the answer round, and comparisons can be chained, strictly if one of them is strict. Two
versions compare as equal exactly if their cores and their identifiers are the same, which is what
makes them the same version and what makes them give a hasher the same pieces. One is below the
other exactly if the rule says so. Build metadata, texts and options change none of this. -/
theorem precedence_linear (a b c : Version) :
    compare a b = (compare b a).swap ∧
    ((compare a b).isLE = true → (compare b c).isLE = true → (compare a c).isLE = true ∧
      (compare a b = .lt ∨ compare b c = .lt → compare a c = .lt)) ∧
    (compare a b = .eq ↔ a.samePrecedence b = true) ∧
    (a.samePrecedence b = true ↔ a.core = b.core ∧ a.preRelease = b.preRelease) ∧
    (a.hashInputs = b.hashInputs ↔ a.samePrecedence b = true) ∧
    (a.samePrecedence b = true → hash a = hash b) ∧
    (compare a b = .lt ↔ a.Precedes b) ∧
    (compare a b = .gt ↔ b.Precedes a) ∧
    ∀ (build : List String) (raw : Option String) (options : Options),
      compare { a with build, raw, options } b = compare a b ∧
      compare b { a with build, raw, options } = compare b a ∧
      Version.samePrecedence { a with build, raw, options } b = a.samePrecedence b ∧
      Version.hashInputs { a with build, raw, options } = a.hashInputs := by
  refine ⟨Std.OrientedCmp.eq_swap, fun hab hbc => ⟨Std.TransCmp.isLE_trans hab hbc,
    compare_eq_lt_of_isLE hab hbc⟩, compare_eq_eq_iff.trans samePrecedence_iff.symm,
    samePrecedence_iff_core_preRelease, hashInputs_eq_iff, fun h => ?_, compare_eq_lt_iff,
    Std.OrientedCmp.gt_iff_lt.trans compare_eq_lt_iff, fun _ _ _ => ⟨rfl, rfl, rfl, rfl⟩⟩
  rw [hash_def, hash_def, hashInputs_eq_iff.2 h]

/-- A number stands below a text, and a pre-release below its release: `1.0.0-alpha.1`,
`1.0.0-alpha.beta` and `1.0.0` are in this order. Build metadata leaves the hash as it is. -/
theorem precedence_linear_alpha :
    let a : Version := { core := ⟨1, 0, 0⟩, preRelease := [.alphanumeric "alpha", .numeric 1] }
    let b : Version :=
      { core := ⟨1, 0, 0⟩, preRelease := [.alphanumeric "alpha", .alphanumeric "beta"] }
    let c : Version := release 1 0 0
    compare a b = .lt ∧ compare b c = .lt ∧ compare a c = .lt ∧
      hash { a with build := ["linux"] } = hash a := by
  intro a b c
  have hab : compare a b = .lt := by decide +kernel
  have hbc : compare b c = .lt := by decide +kernel
  have hac := (precedence_linear a b c).2.1 (by rw [hab]; rfl) (by rw [hbc]; rfl)
  have hbuilt := (precedence_linear { a with build := ["linux"] } a a).2.2.2.2.2.1
  exact ⟨hab, hbc, hac.2 (Or.inl hab), hbuilt (samePrecedence_iff.2 rfl)⟩

end Version

/-! ## The first pre-release of a core -/

/-- No pre-release stands before the number zero. -/
theorem PreRelease.compare_numeric_zero_ne_lt (is : List Identifier) :
    compare is [.numeric 0] ≠ .lt := by
  cases is with
  | nil => exact nofun
  | cons i is =>
    rw [compare_of_ne_nil (by simp) (by simp), List.compare_cons_cons]
    intro h
    rcases Ordering.then_eq_lt.1 h with h | ⟨-, h⟩
    · cases i with
      | numeric n => exact absurd (Nat.compare_eq_lt.1 h) (Nat.not_lt_zero n)
      | alphanumeric t => exact nomatch h
    · cases is with
      | nil => exact nomatch h
      | cons j js => exact nomatch h

namespace Version

theorem compare_numbered_zero_eq_lt_iff {v : Version} {major minor patch : Nat} :
    compare v (numbered major minor patch 0) = .lt ↔
      compare v.core ⟨major, minor, patch⟩ = .lt := by
  rw [compare_def, Rank.compare_def, Ordering.then_eq_lt]
  constructor
  · rintro (h | ⟨-, h⟩)
    · exact h
    · exact absurd h (PreRelease.compare_numeric_zero_ne_lt v.preRelease)
  · exact Or.inl

theorem compare_release_eq_lt_iff {v : Version} (hv : v.isPrerelease = false)
    {major minor patch : Nat} :
    compare v (release major minor patch) = .lt ↔ compare v.core ⟨major, minor, patch⟩ = .lt := by
  have hnil : v.preRelease = [] := by
    simpa [isPrerelease, Rank.isPrerelease] using hv
  rw [compare_def, Rank.compare_def, Ordering.then_eq_lt, hnil]
  constructor
  · rintro (h | ⟨-, h⟩)
    · exact h
    · exact nomatch h
  · exact Or.inl

end Version
end SemanticVersioning
