import SemanticVersioning.Proofs.Reader.Pieces
import SemanticVersioning.Proofs.Version.Faults

/-!
# Versions with numbers of any size

The notation of versions without the limit on their numbers, as a relation on texts in pieces. A
core has three numbers, and each identifier of digits alone is a number too. Everything else is
plain: words, signs and what the loose notation skips.

* `IsFigures`, `SpellsIdentifier`, `SpellsPreRelease`, `SpellsQualifier`, `SpellsVersion`: the parts
  of the notation, strict or loose.
* `number_discerns`, and so on for each part: its reader discerns the pieces that spell it.
* `WritesVersion.spelled`, and so on for each part: what is written within the limit is spelled by
  pieces that fit.
-/

namespace SemanticVersioning

open Reader Text

variable {loose afterNumber : Bool} {ps qs : List Piece} {rest : List Char}

/-! ## Numbers -/

/-- The figures of a number: decimal digits, without leading zeros in the strict notation. -/
structure IsFigures (loose : Bool) (ds : List Char) : Prop where
  ne_nil : ds ≠ []
  digits : ∀ c ∈ ds, c.isDigit = true
  leading : loose = true ∨ ds = ['0'] ∨ ds.head? ≠ some '0'

theorem WritesNumber.isFigures {t : List Char} {n : Nat} (h : WritesNumber loose t n) :
    IsFigures loose t :=
  ⟨h.ne_nil, h.digits, h.leading⟩

theorem WritesNumber.fits {t : List Char} {n : Nat} (h : WritesNumber loose t n) :
    (Piece.figures t).Fits := by
  rw [Piece.Fits, h.value]
  exact h.le

theorem safeValue_of_fits {ds : List Char} (h : (Piece.figures ds).Fits) :
    ∃ n, safeValue ds = .ok n :=
  ⟨_, if_pos h⟩

theorem safeValue_of_not_fits {ds : List Char} (h : ¬ (Piece.figures ds).Fits) :
    safeValue ds = .error (.numericOverflow (String.ofList ds), none) :=
  if_neg h

namespace IsFigures

variable {ds : List Char}

theorem avoids {p : Char → Bool} (h : IsFigures loose ds) (hp : Apart Char.isDigit p)
    (s : List Char) : Avoids p (ds ++ s) := by
  cases ds with
  | nil => exact absurd rfl h.ne_nil
  | cons c ds => exact avoids_cons_iff.2 (hp c (h.digits c List.mem_cons_self))

theorem isWord (h : IsFigures loose ds) : IsWord ds :=
  ⟨h.ne_nil, fun c hc => isWordChar_of_isDigit (h.digits c hc)⟩

theorem number_discerns (h : IsFigures loose ds) (hrest : Avoids Char.isDigit rest) :
    Discerns (number loose) [.figures ds] rest :=
  .checked (digits_complete h.ne_nil h.digits h.leading hrest) hrest safeValue_of_fits
    safeValue_of_not_fits

end IsFigures

/-! ## Identifiers -/

/-- The pieces of an identifier, one in either case. -/
inductive SpellsIdentifier (loose : Bool) : List Piece → Prop
  | numeric {ds : List Char} : IsFigures loose ds → SpellsIdentifier loose [.figures ds]
  | alphanumeric {w : List Char} :
      IsWord w → (∃ c ∈ w, c.isDigit = false) → SpellsIdentifier loose [.plain w]

/-- The pieces of identifiers joined by points. -/
def SpellsIdentifiers (loose : Bool) : List Piece → Prop :=
  Joined (fun _ => (· = ['.'])) (SpellsIdentifier loose)

theorem identifier_discerns (h : SpellsIdentifier loose ps) (hrest : Avoids isWordChar rest) :
    Discerns (identifier loose) ps rest := by
  cases h with
  | @numeric ds hds =>
    have hword : word (ds ++ rest) = .read ds rest := word_eq_read_iff.2 ⟨rfl, hds.isWord, hrest⟩
    have hcheck : identifierOfWord loose ds = (safeValue ds).map .numeric :=
      identifierOfWord_of_digits hds.digits hds.leading
    refine .checked hword (hrest.mono fun _ => isWordChar_of_isDigit) ?_ ?_
    · intro hfits
      obtain ⟨n, hn⟩ := safeValue_of_fits hfits
      exact ⟨.numeric n, by rw [hcheck, hn]; rfl⟩
    · intro hlarge
      rw [hcheck, safeValue_of_not_fits hlarge]
      rfl
  | @alphanumeric w hw hc =>
    exact .ofRead (identifier_eq_read_iff.2 ⟨w, rfl, .alphanumeric hw hc, hrest⟩)

theorem identifiers_discerns (h : SpellsIdentifiers loose ps) (hrest : Avoids isPartChar rest) :
    Discerns (sepBy1 (literal ['.']) (identifier loose)) ps rest := by
  have hitem : ∀ {ps s}, SpellsIdentifier loose ps → Avoids isWordChar s →
      Discerns (identifier loose) ps s := identifier_discerns
  have hword : Avoids isWordChar rest := hrest.mono fun _ => isPartChar_of_isWordChar
  refine .sepBy1 (identifier_staysIn loose) hitem ?_ (fun _ => hword) ?_ h
  · rintro ps u qs - rfl -
    exact ⟨by simp, avoids_cons_iff.2 (by decide), literal_append ['.'] _⟩
  · exact (literal_singleton_misses (hrest.mono fun c hc => by
      simp only [isPartChar, hc, Bool.or_true])).bind

/-! ## Qualifiers -/

/-- The pieces of a pre-release. The dash may be missing as in `WritesPreRelease`. -/
inductive SpellsPreRelease (loose afterNumber : Bool) : List Piece → Prop
  | dashed {ps : List Piece} :
      SpellsIdentifiers loose ps → SpellsPreRelease loose afterNumber (.plain ['-'] :: ps)
  | bare {ps : List Piece} :
      loose = true → Avoids (· == '-') (Piece.textOf ps) →
        (afterNumber = true → Avoids Char.isDigit (Piece.textOf ps)) →
          SpellsIdentifiers loose ps → SpellsPreRelease loose afterNumber ps

/-- The pieces of a qualifier. Build metadata has no numbers. -/
inductive SpellsQualifier (loose afterNumber : Bool) : List Piece → Prop
  | intro {ps : List Piece} {u : List Char} {parts : List String} :
      ps = [] ∨ SpellsPreRelease loose afterNumber ps → Optionally WritesBuild u parts →
        SpellsQualifier loose afterNumber (ps ++ [.plain u])

theorem preRelease_discerns (h : SpellsPreRelease loose afterNumber ps)
    (hrest : Avoids isPartChar rest) : Discerns (preRelease loose) ps rest := by
  cases h with
  | @dashed ps hps =>
    have hdash : dash loose (['-'] ++ (Piece.textOf ps ++ rest)) =
        .read () (Piece.textOf ps ++ rest) := dash_eq_read_iff.2 (Or.inl rfl)
    exact .bind_plain hdash (.within _ (identifiers_discerns hps hrest))
  | bare hloose hne _ hps =>
    have havoids : Avoids (· == '-') rest := hrest.mono fun c hc => by
      rw [eq_of_beq hc]
      decide
    have hdash : dash loose (Piece.textOf ps ++ rest) = .read () (Piece.textOf ps ++ rest) :=
      dash_eq_read_iff.2 (Or.inr ⟨hloose, hne.append havoids, rfl⟩)
    exact .bind_skip hdash (.within _ (identifiers_discerns hps hrest))

theorem buildMetadata_discerns {u : List Char} {parts : List String}
    (h : Optionally WritesBuild u parts) (hrest : Avoids isQualifierChar rest) :
    Discerns (optional buildMetadata) [.plain u] rest := by
  cases h with
  | absent =>
    have hplus : Avoids (· == '+') rest := hrest.mono fun c hc => by
      simp only [isQualifierChar, hc, Bool.or_true]
    exact .ofRead (buildMetadata_misses hplus).optional_apply
  | present hu =>
    have hpart : Avoids isPartChar rest := hrest.mono fun _ => isQualifierChar_of_isPartChar
    exact .ofRead (optional_apply_of_read (buildMetadata_complete hu hpart))

theorem qualifier_discerns (h : SpellsQualifier loose afterNumber ps)
    (hrest : Avoids isQualifierChar rest) : Discerns (qualifier loose) ps rest := by
  cases h with
  | @intro ps u parts hps hu =>
    have hpart : Avoids isPartChar (Piece.textOf [.plain u] ++ rest) := by
      rw [Piece.textOf_plain_cons, Piece.textOf_nil, List.append_nil]
      exact hu.avoids_of_writesBuild (hrest.mono fun _ => isQualifierChar_of_isPartChar)
    refine .bind ?_ fun pre => (buildMetadata_discerns hu hrest).bind_pure
    rcases hps with rfl | hps
    · exact .optional_of_misses
        (preRelease_misses loose (hpart.mono fun _ => isPartChar_of_isWordChar))
    · exact (preRelease_discerns hps hpart).optional

/-- After a number a qualifier begins with no digit. -/
theorem SpellsQualifier.avoids_isDigit (h : SpellsQualifier loose true ps)
    (hrest : Avoids Char.isDigit rest) : Avoids Char.isDigit (Piece.textOf ps ++ rest) := by
  cases h with
  | @intro ps u parts hps hu =>
    have hbuild : Avoids Char.isDigit (u ++ rest) := by
      cases hu with
      | absent => exact hrest
      | present hu =>
        cases hu with
        | intro => exact avoids_cons_iff.2 (by decide)
    rw [Piece.textOf_append, Piece.textOf_plain_cons, Piece.textOf_nil, List.append_nil,
      List.append_assoc]
    rcases hps with rfl | hps
    · exact hbuild
    · cases hps with
      | dashed => exact avoids_cons_iff.2 (by decide)
      | bare _ _ hdigit => exact (hdigit rfl).append hbuild

/-! ## Versions -/

/-- The pieces of a version. What stands before the core is skipped in the loose notation. -/
inductive SpellsVersion (loose : Bool) : List Piece → Prop
  | intro {lead a b c : List Char} {qs : List Piece} :
      (∀ x ∈ lead, isLeader x = true) → (loose = true ∨ lead = []) → IsFigures loose a →
        IsFigures loose b → IsFigures loose c → SpellsQualifier loose true qs →
          SpellsVersion loose (.plain lead :: .figures a :: .plain ['.'] :: .figures b ::
            .plain ['.'] :: .figures c :: qs)

theorem core_discerns {a b c : List Char} (ha : IsFigures loose a) (hb : IsFigures loose b)
    (hc : IsFigures loose c) (hrest : Avoids Char.isDigit rest) :
    Discerns (core loose)
      [.figures a, .plain ['.'], .figures b, .plain ['.'], .figures c] rest := by
  have hpoint : ∀ s, Avoids Char.isDigit ('.' :: s) := fun s => avoids_cons_iff.2 (by decide)
  refine .within _ (.bind (ha.number_discerns (hpoint _)) fun major => ?_)
  refine .bind_plain (literal_append ['.'] _) ?_
  refine .bind (hb.number_discerns (hpoint _)) fun minor => ?_
  exact .bind_plain (literal_append ['.'] _) (hc.number_discerns hrest).bind_pure

/-- **A version is discerned**: it is read if its numbers are within the limit, and refused at the
first that is not. -/
theorem version_discerns (h : SpellsVersion loose ps) : Discerns (Reader.version loose) ps [] := by
  cases h with
  | @intro lead a b c qs hall hloose ha hb hc hqs =>
    have hdigit : Avoids Char.isDigit (Piece.textOf qs ++ []) := hqs.avoids_isDigit (avoids_nil _)
    have hlead : ∀ us, leaders loose (lead ++ (Piece.textOf (.figures a :: us) ++ [])) =
        .read () (Piece.textOf (.figures a :: us) ++ []) := by
      intro us
      rw [Piece.textOf_figures_cons, List.append_assoc]
      refine leaders_eq_read_iff.2 ⟨lead, rfl, hall, ?_⟩
      cases loose with
      | true => exact Or.inl ⟨rfl, ha.avoids isDigit_apart_isLeader _⟩
      | false => exact Or.inr ⟨rfl, hloose.resolve_left (by simp)⟩
    refine .bind_plain (hlead _) (.bind (core_discerns ha hb hc hdigit) fun core => ?_)
    exact (qualifier_discerns hqs (avoids_nil _)).bind_pure

/-! ## Where numbers begin -/

/-- Figures begin with a digit. -/
theorem IsFigures.avoids_of_parted {before ds : List Char} (h : IsFigures loose ds)
    (hbefore : Piece.Parted before (.figures ds :: ps)) :
    Avoids Char.isDigit before.reverse := by
  refine hbefore.resolve_right fun havoids => ?_
  obtain ⟨c, r, rfl⟩ := List.exists_cons_of_ne_nil h.ne_nil
  have hc : c.isDigit = false := avoids_cons_iff.1 havoids
  rw [h.digits c List.mem_cons_self] at hc
  cases hc

theorem avoids_isDigit_reverse_point (before : List Char) :
    Avoids Char.isDigit (before ++ ['.']).reverse :=
  avoids_reverse_append (by simp) (by simp)

theorem SpellsIdentifiers.whole {before : List Char} (h : SpellsIdentifiers loose ps)
    (hbefore : Piece.Parted before ps) : Piece.Whole before ps := by
  refine Joined.whole ?_ ?_ ?_ h hbefore
  · intro before ps hps hbefore
    cases hps with
    | numeric hds => exact .figures (hds.avoids_of_parted hbefore) _
    | alphanumeric => exact .plain before _
  · intro before ps qs hbefore
    refine hbefore.imp_right fun havoids => ?_
    rw [Piece.textOf_append] at havoids
    exact havoids.of_append
  · rintro before ps u rfl qs
    exact Or.inl (avoids_isDigit_reverse_point before)

theorem SpellsQualifier.whole {before : List Char} (h : SpellsQualifier loose afterNumber ps)
    (hbefore : afterNumber = false → Avoids Char.isDigit before.reverse) :
    Piece.Whole before ps := by
  cases h with
  | @intro ps u _ hps _ =>
    refine .append ?_ (.plain _ u)
    rcases hps with rfl | hps
    · exact .nil before
    · cases hps with
      | dashed hps =>
        have hdash : Avoids Char.isDigit (before ++ ['-']).reverse :=
          avoids_reverse_append (by simp) (by simp)
        exact .cons_plain (hps.whole (Or.inl hdash))
      | bare _ _ hdigit hps =>
        refine hps.whole ?_
        cases afterNumber with
        | false => exact Or.inl (hbefore rfl)
        | true => exact Or.inr (hdigit rfl)

theorem SpellsVersion.whole {before : List Char} (h : SpellsVersion loose ps)
    (hbefore : Avoids Char.isDigit before.reverse) : Piece.Whole before ps := by
  cases h with
  | @intro lead a b c qs hall _ _ _ _ hqs =>
    have hlead : Avoids Char.isDigit (before ++ lead).reverse :=
      avoids_reverse_append (fun _ => hbefore) fun x hx =>
        isDigit_apart_isLeader.symm x (hall x hx)
    refine .cons_plain (.cons_figures hlead (.cons_plain ?_))
    refine .cons_figures (avoids_isDigit_reverse_point _) (.cons_plain ?_)
    exact .cons_figures (avoids_isDigit_reverse_point _) (hqs.whole (by simp))

/-! ## Within the limit -/

theorem WritesNumber.spelledBy {t : List Char} {n : Nat} (h : WritesNumber loose t n) :
    SpelledBy (fun ps => ps = [.figures t]) t :=
  ⟨[.figures t], rfl, by simp, by simpa using h.fits⟩

theorem WritesIdentifier.spelledBy {t : List Char} {i : Identifier}
    (h : WritesIdentifier loose t i) : SpelledBy (SpellsIdentifier loose) t := by
  cases h with
  | numeric hn =>
    refine hn.spelledBy.mono ?_
    rintro ps rfl
    exact .numeric hn.isFigures
  | alphanumeric hw hc => exact ⟨[.plain t], .alphanumeric hw hc, by simp, by simp⟩

theorem WritesPreRelease.spelledBy {t : List Char} {is : List Identifier}
    (h : WritesPreRelease loose afterNumber t is) :
    SpelledBy (SpellsPreRelease loose afterNumber) t := by
  cases h with
  | @dashed t _ ht =>
    have hidentifiers : SpelledBy (SpellsIdentifiers loose) t :=
      Separated.spelledBy WritesIdentifier.spelledBy ht
    have hdashed : SpelledBy
        (fun ps => SpellsPreRelease loose afterNumber (.plain ['-'] :: ps)) t :=
      hidentifiers.mono .dashed
    exact hdashed.cons
  | bare hloose hc hdigit ht =>
    obtain ⟨ps, hps, htext, hfits⟩ := Separated.spelledBy WritesIdentifier.spelledBy ht
    refine ⟨ps, .bare hloose ?_ ?_ hps, htext, hfits⟩
    · rw [htext]
      exact avoids_cons_iff.2 (by simpa using hc)
    · intro hnumber
      rw [htext]
      exact avoids_cons_iff.2 (hdigit hnumber)

theorem WritesQualifier.spelledBy {t : List Char} {is : List Identifier} {parts : List String}
    (h : WritesQualifier loose afterNumber t is parts) :
    SpelledBy (SpellsQualifier loose afterNumber) t := by
  cases h with
  | @intro t u _ _ ht hu =>
    have hpre : SpelledBy (fun ps => ps = [] ∨ SpellsPreRelease loose afterNumber ps) t := by
      cases ht with
      | absent => exact ⟨[], Or.inl rfl, rfl, by simp⟩
      | present ht => exact ht.spelledBy.mono Or.inr
    have hbuild : SpelledBy (fun ps => ps = [.plain u]) u := ⟨[.plain u], rfl, by simp, by simp⟩
    refine hpre.append hbuild ?_
    rintro ps _ hps rfl
    exact .intro hps hu

/-- What is written within the limit can be taken apart into pieces that fit. -/
theorem WritesVersion.spelledBy {t : List Char} {core : Core} {is : List Identifier}
    {parts : List String} (h : WritesVersion loose t core is parts) :
    SpelledBy (SpellsVersion loose) t := by
  cases h with
  | @intro lead a b c q major minor patch _ _ hall hloose ha hb hc hq =>
    obtain ⟨qs, hqs, rfl, hfits⟩ := hq.spelledBy
    refine ⟨_, .intro hall hloose ha.isFigures hb.isFigures hc.isFigures hqs, by simp, ?_⟩
    simpa [ha.fits, hb.fits, hc.fits] using hfits

end SemanticVersioning
