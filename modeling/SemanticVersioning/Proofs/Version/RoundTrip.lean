import Mathlib.Control.Monad.Basic
import SemanticVersioning.Proofs.Text.Decimal
import SemanticVersioning.Proofs.Version.Exactness
import SemanticVersioning.Version.Printer

/-!
# The normal form of a version

Writing a version gives a text that both notations read back as that version, and in the strict
notation it is the only one.

* `Version.Writable`: what a version must be for that. Its numbers are admitted, and its words are
  words. Each version that was read is writable (`WritesVersion.writable`), one put together by hand
  need not be.
* `Version.Writable.writesVersion`: the text of a writable version writes it.
* `WritesVersion.eq_render`: what writes a version in the strict notation is its text.

The text of a version may be longer than the text it was read from, since the dash before a
pre-release is always written. Only texts that are short enough are read, so this is asked for.
-/

namespace SemanticVersioning

open Reader Text

/-! ## Numbers -/

theorem isDigit_of_mem_repr {n : Nat} {c : Char} (h : c ∈ n.repr.toList) : c.isDigit = true := by
  rw [Nat.toList_repr] at h
  exact Nat.isDigit_of_mem_toDigits (by decide) (by decide) h

theorem WritesNumber.repr {n : Nat} (h : n ≤ maxSafeInteger) (loose : Bool) :
    WritesNumber loose n.repr.toList n := by
  have hdigits : ∀ c ∈ n.repr.toList, c.isDigit = true := fun _ => isDigit_of_mem_repr
  rw [Nat.toList_repr] at hdigits ⊢
  refine ⟨Nat.toDigits_ne_nil, hdigits, Or.inr ?_, Nat.ofDigitChars_ten_toDigits, h⟩
  · rcases Nat.eq_zero_or_pos n with rfl | hpos
    · exact Or.inl (Nat.toDigits_zero 10)
    · exact Or.inr (Decimal.head?_toDigits_ne hpos)

/-- In the strict notation a number is written in one way only. -/
theorem WritesNumber.eq_repr {t : List Char} {n : Nat} (h : WritesNumber false t n) :
    t = n.repr.toList := by
  rw [Nat.toList_repr, ← h.value]
  exact (Decimal.toDigits_ofDigitChars h.ne_nil h.digits (h.leading.resolve_left nofun)).symm

/-! ## Identifiers -/

/-- Whether an identifier is one that the notation has: an admitted number, or a word that is not
all digits. -/
def Identifier.Writable : Identifier → Prop
  | numeric n => n ≤ maxSafeInteger
  | alphanumeric text => IsWord text.toList ∧ ∃ c ∈ text.toList, c.isDigit = false

theorem Identifier.Writable.writesIdentifier {i : Identifier} (h : i.Writable) (loose : Bool) :
    WritesIdentifier loose i.render.toList i := by
  cases i with
  | numeric n => exact .numeric (.repr h loose)
  | alphanumeric text =>
    have hwrites : WritesIdentifier loose text.toList (.alphanumeric (String.ofList text.toList)) :=
      .alphanumeric h.1 h.2
    rwa [String.ofList_toList] at hwrites

theorem WritesIdentifier.writable {loose : Bool} {t : List Char} {i : Identifier}
    (h : WritesIdentifier loose t i) : i.Writable := by
  cases h with
  | numeric hn => exact hn.le
  | alphanumeric hw hc =>
    simp only [Identifier.Writable, String.toList_ofList]
    exact ⟨hw, hc⟩

theorem WritesIdentifier.eq_render {t : List Char} {i : Identifier}
    (h : WritesIdentifier false t i) : t = i.render.toList := by
  cases h with
  | numeric hn => exact hn.eq_repr
  | alphanumeric => exact String.toList_ofList.symm

/-! ## Qualifiers -/

theorem toList_renderParts {mark : String} {parts : List String} (h : parts ≠ []) :
    (Version.renderParts mark parts).toList =
      mark.toList ++ ['.'].intercalate (parts.map String.toList) := by
  cases parts with
  | nil => exact absurd rfl h
  | cons part parts => simp [Version.renderParts]

/-- The text of what stands after the core of a version. -/
def Version.qualifierText (v : Version) : List Char :=
  (renderParts "-" (v.preRelease.map Identifier.render)).toList ++ (renderParts "+" v.build).toList

/-- The texts of some items with points between them are the text of their list. -/
theorem Dotted.intercalate {α : Type} {G : List Char → α → Prop} {text : α → List Char}
    {as : List α} (hne : as ≠ []) (h : ∀ a ∈ as, G (text a) a) :
    Dotted G (['.'].intercalate (as.map text)) as := by
  have hlist := Separated.intercalate (S := (· = ['.'])) rfl hne h
  rwa [List.map_id'] at hlist

theorem writesPreRelease_render {is : List Identifier} (h : ∀ i ∈ is, i.Writable)
    (loose afterNumber : Bool) :
    Optionally (WritesPreRelease loose afterNumber)
      (Version.renderParts "-" (is.map Identifier.render)).toList is := by
  by_cases hne : is = []
  · subst hne
    exact .absent
  · rw [toList_renderParts (by simpa using hne), List.map_map]
    exact .present (.dashed (.intercalate hne fun i hi => (h i hi).writesIdentifier loose))

theorem writesBuild_render {parts : List String} (h : ∀ part ∈ parts, IsWord part.toList) :
    Optionally WritesBuild (Version.renderParts "+" parts).toList parts := by
  by_cases hne : parts = []
  · subst hne
    exact .absent
  · rw [toList_renderParts hne]
    exact .present (.intro (.intercalate hne fun part hpart =>
      ⟨h part hpart, String.ofList_toList.symm⟩))

/-- In the strict notation a pre-release is written in one way only. -/
theorem writesPreRelease_eq_render {t : List Char} {is : List Identifier} {afterNumber : Bool}
    (h : Optionally (WritesPreRelease false afterNumber) t is) :
    t = (Version.renderParts "-" (is.map Identifier.render)).toList := by
  cases h with
  | absent => rfl
  | present h =>
    cases h with
    | bare hloose => exact nomatch hloose
    | @dashed t _ ht =>
      have hne : is.map Identifier.render ≠ [] := by simpa using ht.ne_nil
      rw [toList_renderParts hne, List.map_map]
      exact congrArg ('-' :: ·) (ht.eq_intercalate (fun _ hu => hu) fun _ _ hi => hi.eq_render)

theorem writesBuild_eq_render {t : List Char} {parts : List String}
    (h : Optionally WritesBuild t parts) :
    t = (Version.renderParts "+" parts).toList := by
  cases h with
  | absent => rfl
  | present h =>
    cases h with
    | @intro t _ ht =>
      rw [toList_renderParts ht.ne_nil]
      refine congrArg ('+' :: ·) (ht.eq_intercalate (fun _ hu => hu) ?_)
      rintro w _ ⟨-, rfl⟩
      exact String.toList_ofList.symm

/-- What writes a qualifier writes identifiers and words of the notation. -/
theorem WritesQualifier.writable {loose afterNumber : Bool} {t : List Char}
    {is : List Identifier} {parts : List String}
    (h : WritesQualifier loose afterNumber t is parts) :
    (∀ i ∈ is, i.Writable) ∧ ∀ part ∈ parts, IsWord part.toList := by
  cases h with
  | intro hpre hbuild =>
    constructor
    · intro i hi
      cases hpre with
      | absent => exact nomatch hi
      | present hpre =>
        cases hpre with
        | dashed ht => exact (ht.exists_of_mem hi).elim fun _ hu => hu.writable
        | bare _ _ _ ht => exact (ht.exists_of_mem hi).elim fun _ hu => hu.writable
    · intro part hpart
      cases hbuild with
      | absent => exact nomatch hpart
      | present hbuild =>
        cases hbuild with
        | intro ht =>
          obtain ⟨w, hw, rfl⟩ := ht.exists_of_mem hpart
          rwa [String.toList_ofList]

/-! ## Versions -/

/-- Whether the numbers of a core are admitted. -/
structure Core.Safe (core : Core) : Prop where
  major : core.major ≤ maxSafeInteger
  minor : core.minor ≤ maxSafeInteger
  patch : core.patch ≤ maxSafeInteger

theorem Core.safe_iff {core : Core} : core.Safe ↔
    core.major ≤ maxSafeInteger ∧ core.minor ≤ maxSafeInteger ∧ core.patch ≤ maxSafeInteger :=
  ⟨fun h => ⟨h.major, h.minor, h.patch⟩, fun h => ⟨h.1, h.2.1, h.2.2⟩⟩

instance (core : Core) : Decidable core.Safe :=
  decidable_of_iff' _ Core.safe_iff

/-- Whether the identifiers and the build metadata of a version are ones that the notation has. Its
numbers may be beyond the limit. -/
structure Version.Worded (v : Version) : Prop where
  identifiers : ∀ i ∈ v.preRelease, i.Writable
  build : ∀ part ∈ v.build, IsWord part.toList

/-- Whether a version is one that the notation has. -/
structure Version.Writable (v : Version) : Prop extends v.Worded where
  core : v.core.Safe

theorem Version.toList_render (v : Version) : v.render.toList =
    v.core.major.repr.toList ++ '.' :: (v.core.minor.repr.toList ++
      '.' :: (v.core.patch.repr.toList ++ v.qualifierText)) := by
  simp [render, Core.render, qualifierText]

namespace Version.Worded

variable {v : Version}

theorem writesQualifier (h : v.Worded) (loose afterNumber : Bool) :
    WritesQualifier loose afterNumber v.qualifierText v.preRelease v.build :=
  .intro (writesPreRelease_render h.identifiers loose afterNumber) (writesBuild_render h.build)

/-- The text of a version consists of characters that may follow a core. -/
theorem isQualifierChar_of_mem_render (h : v.Worded) :
    ∀ c ∈ v.render.toList, isQualifierChar c = true := by
  have hdigits : ∀ {n : Nat} {c : Char}, c ∈ n.repr.toList → isQualifierChar c = true :=
    fun hc => isQualifierChar_of_isDigit (isDigit_of_mem_repr hc)
  intro c hc
  rw [toList_render] at hc
  simp only [List.mem_append, List.mem_cons] at hc
  rcases hc with hc | rfl | hc | rfl | hc | hc
  · exact hdigits hc
  · decide
  · exact hdigits hc
  · decide
  · exact hdigits hc
  · exact (h.writesQualifier true true).isQualifierChar c hc

theorem tight (h : v.Worded) : Tight v.render.toList := by
  refine .of_forall ?_ fun c hc =>
    isQualifierChar_apart_isBlank c (h.isQualifierChar_of_mem_render c hc)
  rw [toList_render]
  simp

end Version.Worded

/-- The text of a version writes it. -/
theorem Version.Writable.writesVersion {v : Version} (h : v.Writable) (loose : Bool) :
    WritesVersion loose v.render.toList v.core v.preRelease v.build := by
  rw [toList_render, ← List.nil_append (v.core.major.repr.toList ++ _)]
  exact .intro (by simp) (Or.inr rfl) (.repr h.core.major loose) (.repr h.core.minor loose)
    (.repr h.core.patch loose) (h.writesQualifier loose true)

theorem WritesVersion.writable {loose : Bool} {t : List Char} {v : Version}
    (h : WritesVersion loose t v.core v.preRelease v.build) : v.Writable := by
  obtain ⟨⟨⟨major, minor, patch⟩, is⟩, parts, raw, options⟩ := v
  cases h with
  | intro _ _ ha hb hc hq => exact ⟨⟨hq.writable.1, hq.writable.2⟩, ⟨ha.le, hb.le, hc.le⟩⟩

/-- **What writes a version in the strict notation is its text.** -/
theorem WritesVersion.eq_render {t : List Char} {v : Version}
    (h : WritesVersion false t v.core v.preRelease v.build) : t = v.render.toList := by
  obtain ⟨⟨⟨major, minor, patch⟩, is⟩, parts, raw, options⟩ := v
  rw [Version.toList_render]
  cases h with
  | @intro lead a b c q _ _ _ _ _ _ hloose ha hb hc hq =>
    obtain rfl : lead = [] := hloose.resolve_left nofun
    obtain rfl := ha.eq_repr
    obtain rfl := hb.eq_repr
    obtain rfl := hc.eq_repr
    cases hq with
    | intro hpre hbuild =>
      rw [writesPreRelease_eq_render hpre, writesBuild_eq_render hbuild]
      rfl

namespace Version

/-- Nothing is stripped from the text of a version. -/
theorem body_render {v : Version} (h : v.Worded) (loose : Bool) :
    body loose v.render.toList = v.render.toList := by
  cases loose with
  | false => rfl
  | true => exact h.tight.trim_eq

/-- **The text of a version is read as the version**, under any options. -/
theorem parse_render {v : Version} (hv : v.Writable)
    (hlength : v.render.utf8ByteSize ≤ maxLength) (options : Options) :
    parse v.render options = .ok { v with raw := some v.render, options } := by
  refine parse_eq_ok_iff.2 ⟨by rwa [utf8Length_toList], ?_, rfl, rfl⟩
  rw [body_render hv.toWorded]
  exact hv.writesVersion options.loose

/-- A text that the strict notation has is the text of the version that any reading of it gives. -/
theorem render_eq_of_parse_strict {text : String} {options : Options} {v w : Version}
    (hv : parse text options = .ok v) (hw : parse text {} = .ok w) : v.render = text := by
  obtain ⟨hlength, hstrict, -, -⟩ := parse_eq_ok_iff.1 hw
  obtain rfl : text = w.render := String.toList_inj.1 hstrict.eq_render
  rw [utf8Length_toList] at hlength
  have hread := parse_render hstrict.writable hlength options
  rw [hv] at hread
  obtain rfl := Except.ok.inj hread
  rfl

/-- **Writing a version and reading it are inverse.**  The text of a version that was read, in
either notation, is again read as that version if it is short enough. It is the text that was read
if that text is one of the strict notation. And whatever a version was made of, if the notation has
its parts, then it is what its text is read as. The text is one of the strict notation each time,
and is read alike under all options. -/
theorem parse_render_roundTrip :
    (∀ (text : String) (options : Options) (v : Version), parse text options = .ok v →
      (v.render.utf8ByteSize ≤ maxLength → ∀ again : Options,
        parse v.render again = .ok { v with raw := some v.render, options := again }) ∧
      ((∃ w, parse text {} = .ok w) → v.render = text)) ∧
    ∀ v : Version, v.Writable → v.render.utf8ByteSize ≤ maxLength → ∀ again : Options,
      parse v.render again = .ok { v with raw := some v.render, options := again } := by
  refine ⟨fun text options v hv => ⟨fun hlength again => ?_, ?_⟩, fun v => parse_render⟩
  · exact parse_render (parse_eq_ok_iff.1 hv).2.1.writable hlength again
  · rintro ⟨w, hw⟩
    exact render_eq_of_parse_strict hv hw

/-- A loose text with all that the normal form mends, a strict text whose identifiers are made of
dashes, and a version put together by hand. -/
theorem parse_render_roundTrip_examples :
    (∃ v, parse " v01.2.3rc.007+b.01" { loose := true } = .ok v ∧
      v.render = "1.2.3-rc.7+b.01" ∧
      parse v.render {} = .ok { v with raw := some v.render, options := {} }) ∧
    (∃ v, parse "1.2.3----.-" {} = .ok v ∧ v.render = "1.2.3----.-") ∧
    ∃ v : Version, v = { core := ⟨0, 0, maxSafeInteger⟩, preRelease := [.alphanumeric "0x"] } ∧
      parse v.render {} = .ok { v with raw := some v.render, options := {} } := by
  have hloose : parse " v01.2.3rc.007+b.01" { loose := true } =
      .ok { core := ⟨1, 2, 3⟩, preRelease := [.alphanumeric "rc", .numeric 7],
            build := ["b", "01"], raw := some " v01.2.3rc.007+b.01",
            options := { loose := true } } := by decide +kernel
  have hdashes : parse "1.2.3----.-" {} =
      .ok { core := ⟨1, 2, 3⟩, preRelease := [.alphanumeric "---", .alphanumeric "-"],
            raw := some "1.2.3----.-" } := by decide +kernel
  have hmade : Version.Writable
      { core := ⟨0, 0, maxSafeInteger⟩, preRelease := [.alphanumeric "0x"] } := by
    refine ⟨⟨?_, by simp⟩, by decide⟩
    intro i hi
    obtain rfl := List.mem_singleton.1 hi
    exact ⟨⟨by decide, List.all_eq_true.1 rfl⟩, 'x', by decide, rfl⟩
  refine ⟨⟨_, hloose, by decide +kernel, ?_⟩, ⟨_, hdashes, ?_⟩, ⟨_, rfl, ?_⟩⟩
  · exact (parse_render_roundTrip.1 _ _ _ hloose).1 (by decide +kernel) {}
  · exact (parse_render_roundTrip.1 _ _ _ hdashes).2 ⟨_, hdashes⟩
  · exact parse_render_roundTrip.2 _ hmade (by decide +kernel) {}

end Version
end SemanticVersioning
