import SemanticVersioning.Proofs.Version.RoundTrip

/-!
# The loose notation

The two notations of versions are one relation with a flag (`WritesVersion`). Here the loose one is
said without the strict one, and without the conditions that keep the missing dash apart from the
dashes and digits around it. All that these leave for the first character of a pre-release without a
dash is a letter (`isAlpha_iff`).

* `WritesLooseVersion`: what the loose notation has, and what it writes.
* `WritesLooseVersion.unique`: although a dash may be missing, a text has one reading.
* `Version.parse_loose_exact`: the loose notation is read exactly, and it is conservative. What the
  strict notation has is read in the loose one as the same version.

The last part needs no comparison of the two notations. A strict text is the text of its version,
and such a text is read alike in both (`Version.parse_render`).
-/

namespace SemanticVersioning

open Reader Text

/-! ## Letters -/

/-- The letters are the characters of words that are no dash and no digit. -/
theorem isAlpha_iff {c : Char} :
    c.isAlpha = true ↔ isWordChar c = true ∧ c ≠ '-' ∧ c.isDigit = false := by
  constructor
  · intro h
    have hc := toNat_of_isAlpha h
    refine ⟨by simp [isWordChar, Char.isAlphanum, h], ?_, ?_⟩
    · rintro rfl
      exact absurd h (by decide)
    · refine Bool.eq_false_iff.2 fun hdigit => ?_
      have hd : 48 ≤ c.toNat ∧ c.toNat ≤ 57 := Char.isDigit_iff_toNat.1 hdigit
      omega
  · rintro ⟨hword, hdash, hdigit⟩
    simpa [isWordChar, Char.isAlphanum, hdash, hdigit] using hword

/-! ## The notation -/

/-- A text that writes a pre-release loosely: identifiers joined by points, after a dash or from a
letter on. -/
inductive WritesLoosePreRelease : List Char → List Identifier → Prop
  | dashed {t : List Char} {is : List Identifier} :
      Dotted (WritesIdentifier true) t is → WritesLoosePreRelease ('-' :: t) is
  | lettered {c : Char} {t : List Char} {is : List Identifier} :
      c.isAlpha = true → Dotted (WritesIdentifier true) (c :: t) is →
        WritesLoosePreRelease (c :: t) is

/-- A text that writes a version loosely. In front of three numbers joined by points stands a run of
`v`, `V`, `=`, space and tab, and after them an optional pre-release and optional build metadata. -/
inductive WritesLooseVersion : List Char → Core → List Identifier → List String → Prop
  | intro {lead a b c p m : List Char} {major minor patch : Nat} {is : List Identifier}
      {parts : List String} :
      (∀ x ∈ lead, x ∈ ['v', 'V', '=', ' ', '\t']) →
        WritesNumber true a major → WritesNumber true b minor → WritesNumber true c patch →
          Optionally WritesLoosePreRelease p is → Optionally WritesBuild m parts →
            WritesLooseVersion (lead ++ (a ++ '.' :: (b ++ '.' :: (c ++ (p ++ m)))))
              ⟨major, minor, patch⟩ is parts

/-- After a number, what may stand without a dash is what begins with a letter. -/
theorem writesPreRelease_loose_iff {t : List Char} {is : List Identifier} :
    WritesPreRelease true true t is ↔ WritesLoosePreRelease t is := by
  constructor
  · intro h
    cases h with
    | dashed ht => exact .dashed ht
    | @bare c t _ _ hdash hdigit ht =>
      obtain ⟨_, _, heq, hword⟩ := ht.exists_first WritesIdentifier.isWord
      obtain ⟨rfl, rfl⟩ := List.cons.inj heq
      exact .lettered (isAlpha_iff.2 ⟨hword, hdash, hdigit rfl⟩) ht
  · intro h
    cases h with
    | dashed ht => exact .dashed ht
    | lettered hc ht =>
      obtain ⟨-, hdash, hdigit⟩ := isAlpha_iff.1 hc
      exact .bare rfl hdash (fun _ => hdigit) ht

theorem Optionally.congr {α : Type} {G H : List Char → List α → Prop}
    (h : ∀ {t as}, G t as ↔ H t as) {t : List Char} {as : List α} :
    Optionally G t as ↔ Optionally H t as := by
  constructor
  · intro ht
    cases ht with
    | absent => exact .absent
    | present ht => exact .present (h.1 ht)
  · intro ht
    cases ht with
    | absent => exact .absent
    | present ht => exact .present (h.2 ht)

theorem isLeader_iff_mem {c : Char} : isLeader c = true ↔ c ∈ ['v', 'V', '=', ' ', '\t'] := by
  simp [isLeader, isInlineSpace, or_assoc]

/-- **The notation with the flag set is the loose notation.** -/
theorem writesVersion_loose_iff {t : List Char} {core : Core} {is : List Identifier}
    {parts : List String} :
    WritesVersion true t core is parts ↔ WritesLooseVersion t core is parts := by
  constructor
  · intro h
    cases h with
    | intro hlead _ ha hb hc hq =>
      cases hq with
      | intro hpre hbuild =>
        exact .intro (fun x hx => isLeader_iff_mem.1 (hlead x hx)) ha hb hc
          ((Optionally.congr writesPreRelease_loose_iff).1 hpre) hbuild
  · intro h
    cases h with
    | intro hlead ha hb hc hpre hbuild =>
      exact .intro (fun x hx => isLeader_iff_mem.2 (hlead x hx)) (Or.inl rfl) ha hb hc
        (.intro ((Optionally.congr writesPreRelease_loose_iff).2 hpre) hbuild)

/-- **A loose text has one reading.** -/
theorem WritesLooseVersion.unique {t : List Char} {core core' : Core} {is is' : List Identifier}
    {parts parts' : List String} (h : WritesLooseVersion t core is parts)
    (h' : WritesLooseVersion t core' is' parts') : core = core' ∧ is = is' ∧ parts = parts' := by
  have hread := version_complete (writesVersion_loose_iff.2 h)
  rw [version_complete (writesVersion_loose_iff.2 h')] at hread
  simpa [eq_comm, and_assoc] using hread

/-! ## Whole texts -/

namespace Version

/-- A strict text is read as the same version under all options. -/
theorem parse_of_parse_strict {text : String} {options : Options} {v : Version}
    (hoptions : options.loose = false) (hv : parse text options = .ok v) (again : Options) :
    parse text again = .ok { v with options := again } := by
  obtain ⟨hlength, hstrict, hraw, -⟩ := parse_eq_ok_iff.1 hv
  rw [hoptions] at hstrict
  obtain rfl : text = v.render := String.toList_inj.1 hstrict.eq_render
  rw [utf8Length_toList] at hlength
  rw [parse_render hstrict.writable hlength again, ← hraw]

/-- **The loose notation is read exactly, and it is conservative.**  A text is a version, read
loosely, if it has at most 256 bytes and is, without the blanks at its ends, a text of the loose
notation; what is read is what it writes, and the text. A text that is read strictly is read loosely
as the same version, but for the options. -/
theorem parse_loose_exact (text : String) (includePrerelease : Bool) :
    (∀ v, parse text { loose := true, includePrerelease } = .ok v ↔
      text.utf8ByteSize ≤ maxLength ∧
        WritesLooseVersion (trim text.toList) v.core v.preRelease v.build ∧
          v.raw = some text ∧ v.options = { loose := true, includePrerelease }) ∧
    ∀ (strict : Options) (v : Version), strict.loose = false → parse text strict = .ok v →
      parse text { loose := true, includePrerelease } =
        .ok { v with options := { loose := true, includePrerelease } } := by
  refine ⟨fun v => ?_, fun strict v hstrict hv => parse_of_parse_strict hstrict hv _⟩
  rw [parse_eq_ok_iff, utf8Length_toList, ← writesVersion_loose_iff]
  rfl

/-- A loose text with all that the strict notation lacks, and a strict text with dashes where the
loose notation could look for a missing one. -/
theorem parse_loose_exact_dashes :
    WritesLooseVersion "=v 01.2.3beta.007+b".toList ⟨1, 2, 3⟩ [.alphanumeric "beta", .numeric 7]
      ["b"] ∧
    ∃ v, parse "1.2.3--1.-" {} = .ok v ∧
      parse "1.2.3--1.-" { loose := true } = .ok { v with options := { loose := true } } := by
  have hloose : parse " =v 01.2.3beta.007+b\n" { loose := true } =
      .ok { core := ⟨1, 2, 3⟩, preRelease := [.alphanumeric "beta", .numeric 7], build := ["b"],
            raw := some " =v 01.2.3beta.007+b\n", options := { loose := true } } := by
    decide +kernel
  have hstrict : parse "1.2.3--1.-" {} =
      .ok { core := ⟨1, 2, 3⟩, preRelease := [.alphanumeric "-1", .alphanumeric "-"],
            raw := some "1.2.3--1.-" } := by decide +kernel
  have hwrites := (((parse_loose_exact _ _).1 _).1 hloose).2.1
  have htrim : trim " =v 01.2.3beta.007+b\n".toList = "=v 01.2.3beta.007+b".toList := by
    decide +kernel
  rw [htrim] at hwrites
  exact ⟨hwrites, _, hstrict, (parse_loose_exact _ _).2 {} _ rfl hstrict⟩

end Version
end SemanticVersioning
