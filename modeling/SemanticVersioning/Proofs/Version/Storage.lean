import Mathlib.Control.Monad.Basic
import SemanticVersioning.Interchange
import SemanticVersioning.Proofs.Version.RoundTrip

/-!
# Versions that cannot be stored

A version is stored as its normal form, and what is stored is read with the limit on the length of
version texts. The limit applies to the text that a version is first read from, too, but that need
not be the normal form. So it is not enough that the first text is short enough.

* `WritesVersion.render_sublist`: the normal form is the text with some characters left out, or it
  is that with one dash put in, where the loose notation lets it be missing.
* `Version.ofDatum_toDatum_of_parse`: hence the normal form exceeds the limit only if the text is as
  long as the limit allows, and is the normal form but for its dash. The versions of such texts are
  stored and cannot be read back; all others can.

What is left out are leading zeros, and what the loose notation skips before the core and around the
text. Any of it makes room for the dash, so the texts in question have nothing of the kind.
-/

namespace SemanticVersioning

open Reader Text

/-! ## Parts of texts -/

namespace Text

variable {s t : List Char}

theorem utf8Length_le_of_sublist (h : s.Sublist t) : utf8Length s ≤ utf8Length t := by
  induction h with
  | slnil => exact Nat.le_refl _
  | cons c _ ih =>
    rw [utf8Length_cons]
    omega
  | cons_cons c _ ih =>
    rw [utf8Length_cons, utf8Length_cons]
    omega

/-- Nothing is left out of a text if no byte is. -/
theorem eq_of_sublist_of_utf8Length_le (h : s.Sublist t) (hlength : utf8Length t ≤ utf8Length s) :
    s = t := by
  induction h with
  | slnil => rfl
  | @cons s t c hs _ =>
    have hle := utf8Length_le_of_sublist hs
    have hpos := c.utf8Size_pos
    rw [utf8Length_cons] at hlength
    omega
  | cons_cons c _ ih =>
    rw [utf8Length_cons, utf8Length_cons] at hlength
    rw [ih (by omega)]

end Text

theorem Version.body_sublist (loose : Bool) (s : List Char) : (body loose s).Sublist s := by
  cases loose with
  | false => exact .refl s
  | true => exact (trim_isInfix s).sublist

/-! ## What the normal form leaves out -/

theorem WritesNumber.repr_sublist {loose : Bool} {t : List Char} {n : Nat}
    (h : WritesNumber loose t n) : n.repr.toList.Sublist t := by
  rw [Nat.toList_repr, ← h.value]
  exact (Decimal.toDigits_isSuffix h.ne_nil h.digits).sublist

theorem WritesIdentifier.render_sublist {loose : Bool} {t : List Char} {i : Identifier}
    (h : WritesIdentifier loose t i) : i.render.toList.Sublist t := by
  cases h with
  | numeric hn => exact hn.repr_sublist
  | alphanumeric =>
    rw [Identifier.render, String.toList_ofList]

theorem writesIdentifiers_render_sublist {loose : Bool} {t : List Char} {is : List Identifier}
    (h : Dotted (WritesIdentifier loose) t is) :
    ∃ rest, (Version.renderParts "-" (is.map Identifier.render)).toList = '-' :: rest ∧
      rest.Sublist t := by
  have hne : is.map Identifier.render ≠ [] := by simpa using h.ne_nil
  refine ⟨_, toList_renderParts hne, ?_⟩
  rw [List.map_map]
  refine h.rel_intercalate (R := List.Sublist) List.Sublist.append ?_ fun u i hi =>
    hi.render_sublist
  rintro u rfl
  exact .refl _

/-- The normal form of a pre-release leaves characters out, or it has the dash that is missing. -/
theorem writesPreRelease_render_sublist {loose afterNumber : Bool} {t : List Char}
    {is : List Identifier} (h : Optionally (WritesPreRelease loose afterNumber) t is) :
    (Version.renderParts "-" (is.map Identifier.render)).toList.Sublist t ∨
      ∃ rest, (Version.renderParts "-" (is.map Identifier.render)).toList = '-' :: rest ∧
        rest.Sublist t := by
  cases h with
  | absent => exact Or.inl (.refl _)
  | present h =>
    cases h with
    | dashed ht =>
      obtain ⟨rest, hrender, hrest⟩ := writesIdentifiers_render_sublist ht
      exact Or.inl (hrender ▸ hrest.cons_cons '-')
    | bare _ _ _ ht => exact Or.inr (writesIdentifiers_render_sublist ht)

theorem Core.toList_render (core : Core) : core.render.toList =
    core.major.repr.toList ++ '.' :: (core.minor.repr.toList ++ '.' :: core.patch.repr.toList) := by
  simp [render]

/-- **The normal form of a version is a text of it with characters left out**, but for the dash
before a pre-release if that is missing from the text. -/
theorem WritesVersion.render_sublist {loose : Bool} {t : List Char} {v : Version}
    (h : WritesVersion loose t v.core v.preRelease v.build) :
    v.render.toList.Sublist t ∨
      ∃ rest, v.render.toList = v.core.render.toList ++ '-' :: rest ∧
        (v.core.render.toList ++ rest).Sublist t := by
  obtain ⟨⟨⟨major, minor, patch⟩, is⟩, parts, raw, options⟩ := v
  cases h with
  | @intro lead a b c _ _ _ _ _ _ _ _ ha hb hc hq =>
    cases hq with
    | @intro p m _ _ hp hm =>
      have hcore : (Core.render ⟨major, minor, patch⟩).toList.Sublist
          (lead ++ (a ++ '.' :: (b ++ '.' :: c))) := by
        rw [Core.toList_render]
        exact (ha.repr_sublist.append
          ((hb.repr_sublist.append (hc.repr_sublist.cons_cons '.')).cons_cons '.')).trans
            (List.sublist_append_right lead _)
      have htext : lead ++ (a ++ '.' :: (b ++ '.' :: (c ++ (p ++ m)))) =
          lead ++ (a ++ '.' :: (b ++ '.' :: c)) ++ (p ++ m) := by simp
      simp only [Version.render, String.toList_append, List.append_assoc]
      rw [← writesBuild_eq_render hm, htext]
      rcases writesPreRelease_render_sublist hp with hpre | ⟨rest, hpre, hrest⟩
      · exact Or.inl (hcore.append (hpre.append (.refl m)))
      · exact Or.inr ⟨rest ++ m, by rw [hpre, List.cons_append],
          hcore.append (hrest.append (.refl m))⟩

/-! ## Storing and reading back -/

namespace Version

/-- The text is the normal form of the version but for the dash before the pre-release. -/
def LacksDash (v : Version) (text : String) : Prop :=
  ∃ rest, text.toList = v.core.render.toList ++ rest ∧
    v.render.toList = v.core.render.toList ++ '-' :: rest

theorem LacksDash.utf8ByteSize_eq {v : Version} {text : String} (h : v.LacksDash text) :
    v.render.utf8ByteSize = text.utf8ByteSize + 1 := by
  obtain ⟨rest, htext, hrender⟩ := h
  have hdash : '-'.utf8Size = 1 := rfl
  rw [← utf8Length_toList, ← utf8Length_toList, htext, hrender, utf8Length_append,
    utf8Length_append, utf8Length_cons, hdash]
  omega

/-- The normal form of a version that was read is no longer than the text, or one byte longer, and
then the text is the normal form but for the dash. -/
theorem utf8ByteSize_render_of_parse {text : String} {options : Options} {v : Version}
    (hv : parse text options = .ok v) :
    v.render.utf8ByteSize ≤ text.utf8ByteSize ∨ v.LacksDash text := by
  obtain ⟨-, hwrites, -, -⟩ := parse_eq_ok_iff.1 hv
  have hbody := body_sublist options.loose text.toList
  rw [← utf8Length_toList, ← utf8Length_toList]
  rcases hwrites.render_sublist with hrender | ⟨rest, hrender, hrest⟩
  · exact Or.inl (utf8Length_le_of_sublist (hrender.trans hbody))
  · have hpart := hrest.trans hbody
    rcases Nat.lt_or_ge (utf8Length (v.core.render.toList ++ rest)) (utf8Length text.toList) with
      hshorter | hwhole
    · have hdash : '-'.utf8Size = 1 := rfl
      left
      rw [hrender, utf8Length_append, utf8Length_cons, hdash]
      rw [utf8Length_append] at hshorter
      omega
    · exact Or.inr ⟨rest, (eq_of_sublist_of_utf8Length_le hpart hwhole).symm, hrender⟩

/-- **Which versions can be stored.**  The normal form of a version that was read has at most one
byte more than a version text may have. It has that one byte more exactly if the text was as long as
it may be, and is the normal form but for the dash before the pre-release. Such a version is stored
as a text that is refused for its length, and every other version is read back as it was, but for
the text and the options. -/
theorem ofDatum_toDatum_of_parse {text : String} {options : Options} {v : Version}
    (hv : parse text options = .ok v) :
    v.render.utf8ByteSize ≤ maxLength + 1 ∧
    (maxLength < v.render.utf8ByteSize ↔ text.utf8ByteSize = maxLength ∧ v.LacksDash text) ∧
    ofDatum v.toDatum =
      if maxLength < v.render.utf8ByteSize then .error (.invalid (excess v.render))
      else .ok { v with raw := some v.render, options := {} } := by
  obtain ⟨hlength, hwrites, -, -⟩ := parse_eq_ok_iff.1 hv
  rw [utf8Length_toList] at hlength
  refine ⟨?_, ⟨fun hlong => ?_, fun ⟨hfull, hlacks⟩ => ?_⟩, ?_⟩
  · rcases utf8ByteSize_render_of_parse hv with hrender | hlacks
    · omega
    · have hsize := hlacks.utf8ByteSize_eq
      omega
  · rcases utf8ByteSize_render_of_parse hv with hrender | hlacks
    · omega
    · have hsize := hlacks.utf8ByteSize_eq
      exact ⟨by omega, hlacks⟩
  · have hsize := hlacks.utf8ByteSize_eq
    omega
  · split
    case isTrue hlong =>
      rw [toDatum, ofDatum, parse, if_pos (by rwa [utf8Length_toList])]
      rfl
    case isFalse hshort =>
      rw [toDatum, ofDatum, parse_render hwrites.writable (Nat.not_lt.1 hshort)]
      rfl

/-- A loose text with letters for a pre-release and no dash before them, one letter more than the
number says. -/
def dashless (n : Nat) : String :=
  (Core.mk 1 2 3).render ++ String.ofList (List.replicate (n + 1) 'a')

/-- The version of that text. -/
def dashlessVersion (n : Nat) : Version where
  core := ⟨1, 2, 3⟩
  preRelease := [.alphanumeric (String.ofList (List.replicate (n + 1) 'a'))]
  raw := some (dashless n)
  options := { loose := true }

theorem toList_dashless (n : Nat) : (dashless n).toList =
    (Core.mk 1 2 3).render.toList ++ List.replicate (n + 1) 'a' := by
  rw [dashless, String.toList_append, String.toList_ofList]

theorem utf8ByteSize_dashless (n : Nat) : (dashless n).utf8ByteSize = n + 6 := by
  have hcore : utf8Length (Core.mk 1 2 3).render.toList = 5 := by decide +kernel
  have hletters : ∀ k, utf8Length (List.replicate k 'a') = k := by
    intro k
    induction k with
    | zero => rfl
    | succ k ih =>
      have hletter : 'a'.utf8Size = 1 := rfl
      rw [List.replicate_succ, utf8Length_cons, ih, hletter, Nat.add_comm]
  rw [← utf8Length_toList, toList_dashless, utf8Length_append, hletters, hcore]
  omega

theorem lacksDash_dashless (n : Nat) : (dashlessVersion n).LacksDash (dashless n) := by
  refine ⟨List.replicate (n + 1) 'a', toList_dashless n, ?_⟩
  simp [render, dashlessVersion, renderParts, Identifier.render]

theorem writesVersion_dashless (n : Nat) : WritesVersion true (dashless n).toList
    (dashlessVersion n).core (dashlessVersion n).preRelease (dashlessVersion n).build := by
  have hletters : ∀ c ∈ List.replicate (n + 1) 'a', isWordChar c = true := fun c hc =>
    List.eq_of_mem_replicate hc ▸ rfl
  have hword : WritesIdentifier true (List.replicate (n + 1) 'a')
      (.alphanumeric (String.ofList (List.replicate (n + 1) 'a'))) :=
    .alphanumeric ⟨List.cons_ne_nil _ _, hletters⟩ ⟨'a', List.mem_cons_self, rfl⟩
  have hpre : WritesPreRelease true true (List.replicate (n + 1) 'a')
      (dashlessVersion n).preRelease :=
    .bare rfl (by decide) (fun _ => rfl) (.single hword)
  have hnumber : ∀ k, k ≤ 3 → WritesNumber true k.repr.toList k := fun k hk =>
    .repr (Nat.le_trans hk (by decide)) true
  have htext : (dashless n).toList = [] ++ ((1).repr.toList ++ '.' :: ((2).repr.toList ++
      '.' :: ((3).repr.toList ++ (List.replicate (n + 1) 'a' ++ [])))) := by
    rw [toList_dashless, Core.toList_render]
    simp only [List.append_nil, List.nil_append, List.append_assoc, List.cons_append]
  rw [htext]
  exact .intro (fun _ hx => absurd hx List.not_mem_nil) (Or.inl rfl) (hnumber 1 (by decide))
    (hnumber 2 (by decide)) (hnumber 3 (by decide)) (.intro (.present hpre) .absent)

theorem parse_dashless {n : Nat} (h : n + 6 ≤ maxLength) :
    parse (dashless n) { loose := true } = .ok (dashlessVersion n) := by
  have hwrites := writesVersion_dashless n
  obtain ⟨rest, htext, hrender⟩ := lacksDash_dashless n
  have hchars : ∀ c ∈ (dashless n).toList, isQualifierChar c = true := by
    intro c hc
    refine hwrites.writable.toWorded.isQualifierChar_of_mem_render c ?_
    rw [htext, List.mem_append] at hc
    rw [hrender, List.mem_append]
    exact hc.imp_right (List.mem_cons_of_mem '-')
  have htight : Tight (dashless n).toList := by
    refine .of_forall ?_ fun c hc => isQualifierChar_apart_isBlank c (hchars c hc)
    rw [toList_dashless, List.replicate_succ]
    exact List.append_ne_nil_of_right_ne_nil _ (List.cons_ne_nil _ _)
  have hbody : body true (dashless n).toList = (dashless n).toList := htight.trim_eq
  refine parse_eq_ok_iff.2 ⟨?_, ?_, rfl, rfl⟩
  · rwa [utf8Length_toList, utf8ByteSize_dashless]
  · rw [← hbody] at hwrites
    exact hwrites

/-- One letter less makes room for the dash. -/
theorem ofDatum_toDatum_of_parse_dashless :
    parse (dashless 249) { loose := true } = .ok (dashlessVersion 249) ∧
      ofDatum (dashlessVersion 249).toDatum =
        .ok { dashlessVersion 249 with
              raw := some (dashlessVersion 249).render, options := {} } := by
  have hread : parse (dashless 249) { loose := true } = .ok (dashlessVersion 249) :=
    parse_dashless (by decide)
  obtain ⟨-, hiff, hstored⟩ := ofDatum_toDatum_of_parse hread
  have hshort : ¬ maxLength < (dashlessVersion 249).render.utf8ByteSize := by
    intro hlong
    have hfull := (hiff.1 hlong).1
    rw [utf8ByteSize_dashless] at hfull
    exact absurd hfull (by decide)
  rw [if_neg hshort] at hstored
  exact ⟨hread, hstored⟩

/-- The limit on texts is not one on normal forms: a text within the limit is read as a version
whose normal form is beyond it, and what is stored for that version is refused. -/
theorem exists_toDatum_refused :
    ∃ v, parse (dashless 250) { loose := true } = .ok v ∧ (dashless 250).utf8ByteSize = 256 ∧
      v.render.utf8ByteSize = 257 ∧ ofDatum v.toDatum = .error (.invalid (excess v.render)) := by
  have hsize : (dashlessVersion 250).render.utf8ByteSize = 257 := by
    rw [(lacksDash_dashless 250).utf8ByteSize_eq, utf8ByteSize_dashless]
  have hlong : utf8Length (dashlessVersion 250).render.toList > maxLength := by
    rw [utf8Length_toList, hsize]
    exact Nat.lt_succ_self maxLength
  refine ⟨_, parse_dashless (by decide), utf8ByteSize_dashless 250, hsize, ?_⟩
  rw [toDatum, ofDatum, parse, if_pos hlong]
  rfl

end Version
end SemanticVersioning
