import SemanticVersioning.Proofs.Reader.Exactness
import SemanticVersioning.Version.Reader

/-!
# The notation of versions

The notation as a relation between texts and what they write, said without the readers, and the
exactness of each reader for its part of it.

* `WritesNumber`, `IsWord`, `WritesIdentifier`, `WritesPreRelease`, `WritesBuild`,
  `WritesQualifier`, `WritesVersion`: the parts of the notation, strict or loose.
* `number_sound` and `number_complete`, and so on for each part: the reader reads what the notation
  writes, and nothing else.

## The missing dash

The loose notation lets the dash before a pre-release be missing. It cannot be missing if the first
identifier begins with a dash, which would be taken for it. Nor can it be missing after a number if
the first identifier begins with a digit, which would be taken for one of that number's. An operand
of a range can have a wildcard where a version has its patch number, and a digit may stand directly
after a wildcard; hence the parameter `afterNumber`.
-/

namespace SemanticVersioning

open Reader Text

/-! ## Numbers -/

/-- A text that writes a number: its decimal digits, without leading zeros in the strict
notation. -/
structure WritesNumber (loose : Bool) (t : List Char) (n : Nat) : Prop where
  ne_nil : t ≠ []
  digits : ∀ c ∈ t, c.isDigit = true
  leading : loose = true ∨ t = ['0'] ∨ t.head? ≠ some '0'
  value : Nat.ofDigitChars 10 t 0 = n
  le : n ≤ maxSafeInteger

theorem safeValue_eq_ok_iff {t : List Char} {n : Nat} :
    safeValue t = .ok n ↔ Nat.ofDigitChars 10 t 0 = n ∧ n ≤ maxSafeInteger := by
  rw [safeValue]
  split
  case isTrue h =>
    constructor
    · rintro ⟨⟩
      exact ⟨rfl, h⟩
    · rintro ⟨rfl, -⟩
      rfl
  case isFalse h =>
    constructor
    · intro h'
      cases h'
    · rintro ⟨rfl, hle⟩
      exact absurd hle h

/-- Of digits with no zero too many the value decides. -/
theorem writesNumber_iff_safeValue {loose : Bool} {t : List Char} {n : Nat} (hne : t ≠ [])
    (hdigits : ∀ c ∈ t, c.isDigit = true)
    (hlead : loose = true ∨ t = ['0'] ∨ t.head? ≠ some '0') :
    WritesNumber loose t n ↔ safeValue t = .ok n := by
  rw [safeValue_eq_ok_iff]
  constructor
  · intro h
    exact ⟨h.value, h.le⟩
  · rintro ⟨hvalue, hle⟩
    exact ⟨hne, hdigits, hlead, hvalue, hle⟩

/-- Where a strict number does not begin with a zero, its digits are scanned like loose ones. -/
theorem strictDigits_apply_of_head?_ne {s : List Char} (h : s.head? ≠ some '0') :
    strictDigits s = charsWhile1 Char.isDigit s := by
  cases s with
  | nil => rfl
  | cons c s =>
    simp only [strictDigits]
    split
    case h_1 heq =>
      obtain ⟨rfl, -⟩ := List.cons.inj heq
      exact absurd rfl h
    case h_2 => rfl

theorem number_sound {loose : Bool} {s rest : List Char} {n : Nat}
    (h : number loose s = .read n rest) :
    ∃ t, s = t ++ rest ∧ WritesNumber loose t n ∧ (loose = true → Avoids Char.isDigit rest) := by
  obtain ⟨t, hdigits, hvalue⟩ := checked_eq_read_iff.1 h
  obtain ⟨hvalue, hle⟩ := safeValue_eq_ok_iff.1 hvalue
  cases loose with
  | true =>
    obtain ⟨rfl, hne, ht, hrest⟩ := charsWhile1_eq_read_iff.1 hdigits
    exact ⟨t, rfl, ⟨hne, ht, Or.inl rfl, hvalue, hle⟩, fun _ => hrest⟩
  | false =>
    have hstrict : strictDigits s = .read t rest := hdigits
    by_cases hzero : s.head? = some '0'
    · obtain ⟨r, rfl⟩ := List.head?_eq_some_iff.1 hzero
      obtain ⟨rfl, rfl⟩ := Outcome.read.inj hstrict
      exact ⟨['0'], rfl, ⟨by simp, by simp, Or.inr (Or.inl rfl), hvalue, hle⟩, nofun⟩
    · rw [strictDigits_apply_of_head?_ne hzero] at hstrict
      obtain ⟨rfl, hne, ht, -⟩ := charsWhile1_eq_read_iff.1 hstrict
      have hlead : t.head? ≠ some '0' := by
        cases t with
        | nil => exact absurd rfl hne
        | cons c t => exact hzero
      exact ⟨t, rfl, ⟨hne, ht, Or.inr (Or.inr hlead), hvalue, hle⟩, nofun⟩

/-- The digits of a number are scanned whatever their value is. -/
theorem digits_complete {loose : Bool} {t rest : List Char} (hne : t ≠ [])
    (ht : ∀ c ∈ t, c.isDigit = true) (hlead : loose = true ∨ t = ['0'] ∨ t.head? ≠ some '0')
    (hrest : Avoids Char.isDigit rest) : digits loose (t ++ rest) = .read t rest := by
  have hscan : charsWhile1 Char.isDigit (t ++ rest) = .read t rest :=
    charsWhile1_eq_read_iff.2 ⟨rfl, hne, ht, hrest⟩
  cases loose with
  | true => exact hscan
  | false =>
    show strictDigits (t ++ rest) = .read t rest
    rcases hlead with h | rfl | hlead
    · exact nomatch h
    · rfl
    · rw [strictDigits_apply_of_head?_ne]
      · exact hscan
      · cases t with
        | nil => exact absurd rfl hne
        | cons c t => exact hlead

theorem number_complete {loose : Bool} {t rest : List Char} {n : Nat}
    (ht : WritesNumber loose t n) (hrest : Avoids Char.isDigit rest) :
    number loose (t ++ rest) = .read n rest :=
  checked_eq_read_iff.2 ⟨t, digits_complete ht.ne_nil ht.digits ht.leading hrest,
    safeValue_eq_ok_iff.2 ⟨ht.value, ht.le⟩⟩

/-- A number is missed where no digit stands. -/
theorem number_misses {s : List Char} (h : Avoids Char.isDigit s) : Misses (number true) s :=
  (charsWhile1_misses h : Misses (digits true) s).checked

theorem WritesNumber.avoids {loose : Bool} {t : List Char} {n : Nat} {p : Char → Bool}
    (h : WritesNumber loose t n) (hp : Apart Char.isDigit p) (s : List Char) :
    Avoids p (t ++ s) := by
  cases t with
  | nil => exact absurd rfl h.ne_nil
  | cons c t => exact avoids_cons_iff.2 (hp c (h.digits c (by simp)))

/-! ## Words and identifiers -/

/-- A word: a run of letters, digits and dashes, of at least one character. -/
def IsWord (t : List Char) : Prop :=
  t ≠ [] ∧ ∀ c ∈ t, isWordChar c = true

/-- A text that writes an identifier.  A word of digits alone writes a number, each other word
writes itself. -/
inductive WritesIdentifier (loose : Bool) : List Char → Identifier → Prop
  | numeric {t : List Char} {n : Nat} :
      WritesNumber loose t n → WritesIdentifier loose t (.numeric n)
  | alphanumeric {t : List Char} :
      IsWord t → (∃ c ∈ t, c.isDigit = false) →
        WritesIdentifier loose t (.alphanumeric (String.ofList t))

theorem isWordChar_of_isDigit {c : Char} (h : c.isDigit = true) : isWordChar c = true := by
  simp [isWordChar, Char.isAlphanum, h]

theorem WritesIdentifier.isWord {loose : Bool} {t : List Char} {i : Identifier}
    (h : WritesIdentifier loose t i) : IsWord t := by
  cases h with
  | numeric hn => exact ⟨hn.ne_nil, fun c hc => isWordChar_of_isDigit (hn.digits c hc)⟩
  | alphanumeric hw _ => exact hw

theorem word_eq_read_iff {s t rest : List Char} :
    word s = .read t rest ↔ s = t ++ rest ∧ IsWord t ∧ Avoids isWordChar rest := by
  simp only [word, charsWhile1_eq_read_iff, IsWord, and_assoc]

/-- Digits of which the check complains have a zero in front, which the strict notation does not
have. -/
theorem leadingZero_eq_false_iff {loose : Bool} {w : List Char} :
    (!loose && w.length > 1 && w.head? == some '0') = false ↔
      loose = true ∨ w = ['0'] ∨ w.head? ≠ some '0' := by
  cases loose with
  | true => simp
  | false =>
    cases w with
    | nil => simp
    | cons c w =>
      cases w with
      | nil => simpa using Decidable.em (c = '0')
      | cons d w => simp

/-- What a word of digits writes is a number. -/
theorem writesIdentifier_iff_of_digits {loose : Bool} {w : List Char} {i : Identifier}
    (hdigits : ∀ c ∈ w, c.isDigit = true) :
    WritesIdentifier loose w i ↔ ∃ n, i = .numeric n ∧ WritesNumber loose w n := by
  constructor
  · intro h
    cases h with
    | numeric hn => exact ⟨_, rfl, hn⟩
    | alphanumeric _ hother =>
      obtain ⟨c, hc, hother⟩ := hother
      exact absurd (hdigits c hc) (Bool.eq_false_iff.1 hother)
  · rintro ⟨n, rfl, hn⟩
    exact .numeric hn

/-- What another word writes is itself. -/
theorem writesIdentifier_iff_of_not_digits {loose : Bool} {w : List Char} {i : Identifier}
    (hw : IsWord w) (hdigits : ¬ ∀ c ∈ w, c.isDigit = true) :
    WritesIdentifier loose w i ↔ i = .alphanumeric (String.ofList w) := by
  constructor
  · intro h
    cases h with
    | numeric hn => exact absurd hn.digits hdigits
    | alphanumeric => rfl
  · rintro rfl
    exact .alphanumeric hw (by simpa using hdigits)

section

variable {loose : Bool} {w : List Char}

theorem identifierOfWord_of_digits (hdigits : ∀ c ∈ w, c.isDigit = true)
    (hlead : loose = true ∨ w = ['0'] ∨ w.head? ≠ some '0') :
    identifierOfWord loose w = (safeValue w).map .numeric := by
  rw [identifierOfWord, if_pos (List.all_eq_true.2 hdigits),
    if_neg (Bool.eq_false_iff.1 (leadingZero_eq_false_iff.2 hlead))]

theorem identifierOfWord_of_leadingZero (hdigits : ∀ c ∈ w, c.isDigit = true)
    (hlead : ¬ (loose = true ∨ w = ['0'] ∨ w.head? ≠ some '0')) :
    identifierOfWord loose w = .error (.invalidVersion, some .numericIdentifier) := by
  rw [identifierOfWord, if_pos (List.all_eq_true.2 hdigits),
    if_pos (eq_true_of_ne_false (mt leadingZero_eq_false_iff.1 hlead))]

theorem identifierOfWord_of_not_digits (hdigits : ¬ ∀ c ∈ w, c.isDigit = true) :
    identifierOfWord loose w = .ok (.alphanumeric (String.ofList w)) := by
  rw [identifierOfWord, if_neg (mt List.all_eq_true.1 hdigits)]

end

/-- An identifier is the check of a word, said as in the notation. -/
theorem identifierOfWord_eq_ok_iff {loose : Bool} {w : List Char} {i : Identifier}
    (hw : IsWord w) : identifierOfWord loose w = .ok i ↔ WritesIdentifier loose w i := by
  by_cases hdigits : ∀ c ∈ w, c.isDigit = true
  · rw [writesIdentifier_iff_of_digits hdigits]
    by_cases hlead : loose = true ∨ w = ['0'] ∨ w.head? ≠ some '0'
    · rw [identifierOfWord_of_digits hdigits hlead]
      constructor
      · intro h
        cases hvalue : safeValue w with
        | error e =>
          rw [hvalue] at h
          cases h
        | ok n =>
          rw [hvalue] at h
          cases h
          exact ⟨n, rfl, (writesNumber_iff_safeValue hw.1 hdigits hlead).2 hvalue⟩
      · rintro ⟨n, rfl, hn⟩
        rw [(writesNumber_iff_safeValue hw.1 hdigits hlead).1 hn]
        rfl
    · rw [identifierOfWord_of_leadingZero hdigits hlead]
      constructor
      · intro h
        cases h
      · rintro ⟨n, -, hn⟩
        exact absurd hn.leading hlead
  · rw [identifierOfWord_of_not_digits hdigits, writesIdentifier_iff_of_not_digits hw hdigits]
    constructor
    · rintro ⟨⟩
      rfl
    · rintro rfl
      rfl

theorem identifier_eq_read_iff {loose : Bool} {s rest : List Char} {i : Identifier} :
    identifier loose s = .read i rest ↔
      ∃ t, s = t ++ rest ∧ WritesIdentifier loose t i ∧ Avoids isWordChar rest := by
  rw [identifier, checked_eq_read_iff]
  constructor
  · rintro ⟨t, hword, hcheck⟩
    obtain ⟨rfl, hw, hrest⟩ := word_eq_read_iff.1 hword
    exact ⟨t, rfl, (identifierOfWord_eq_ok_iff hw).1 hcheck, hrest⟩
  · rintro ⟨t, rfl, ht, hrest⟩
    exact ⟨t, word_eq_read_iff.2 ⟨rfl, ht.isWord, hrest⟩,
      (identifierOfWord_eq_ok_iff ht.isWord).2 ht⟩

/-- An identifier is missed where no word stands. -/
theorem identifier_misses (loose : Bool) {s : List Char} (h : Avoids isWordChar s) :
    Misses (identifier loose) s :=
  (charsWhile1_misses h : Misses word s).checked

/-! ## Lists with points between their items -/

/-- One or more items, joined by points. -/
def Dotted {α : Type} (G : List Char → α → Prop) : List Char → List α → Prop :=
  Separated (· = ['.']) G

/-- The characters that can continue a list of words joined by points. -/
def isPartChar (c : Char) : Bool :=
  isWordChar c || c == '.'

section Dotted

variable {α : Type} {G : List Char → α → Prop} {item : Reader α}

theorem dotted_sound
    (hitem : ∀ {s a rest}, item s = .read a rest → ∃ t, s = t ++ rest ∧ G t a)
    {s rest : List Char} {as : List α} (h : sepBy1 (literal ['.']) item s = .read as rest) :
    ∃ t, s = t ++ rest ∧ Dotted G t as := by
  refine sepBy1_sound (p := fun _ => false) ?_ (fun _ => hitem) (fun _ _ => rfl) h
  intro s mid hsep
  exact ⟨['.'], literal_eq_read_iff.1 hsep, rfl, fun _ _ => rfl⟩

theorem dotted_complete
    (hitem : ∀ {t a s}, G t a → Avoids isWordChar s → item (t ++ s) = .read a s)
    {t rest : List Char} {as : List α} (ht : Dotted G t as) (hrest : Avoids isPartChar rest) :
    sepBy1 (literal ['.']) item (t ++ rest) = .read as rest := by
  refine sepBy1_complete (p := fun _ => false) (Avoids isWordChar) ?_ ?_ ?_ ?_ ?_ ?_ ht
    (fun _ _ => rfl)
  · rintro u s rfl
    rw [Avoids.dropWhile_eq (fun _ _ => rfl)]
    exact ⟨by simp, literal_append ['.'] s⟩
  · intro t a s hta _ hs
    exact hitem hta hs
  · intro t as hta
    exact ⟨t, Avoids.dropWhile_eq (fun _ _ => rfl), hta⟩
  · rintro u t as rfl -
    exact avoids_cons_iff.2 (by decide)
  · exact hrest.mono fun c hc => by simp [isPartChar, hc]
  · exact (literal_singleton_misses (hrest.mono fun c hc => by
      simp only [isPartChar, hc, Bool.or_true])).bind

/-- A list of words begins with a character of a word. -/
theorem Dotted.exists_first (hG : ∀ {t a}, G t a → IsWord t) {t : List Char} {as : List α}
    (ht : Dotted G t as) : ∃ c r, t = c :: r ∧ isWordChar c = true := by
  obtain ⟨u, v, a, rfl, hu⟩ := Separated.exists_first ht
  obtain ⟨hne, hword⟩ := hG hu
  cases u with
  | nil => exact absurd rfl hne
  | cons c u => exact ⟨c, u ++ v, rfl, hword c (by simp)⟩

end Dotted

theorem identifiers_sound {loose : Bool} {s rest : List Char} {is : List Identifier}
    (h : sepBy1 (literal ['.']) (identifier loose) s = .read is rest) :
    ∃ t, s = t ++ rest ∧ Dotted (WritesIdentifier loose) t is := by
  refine dotted_sound ?_ h
  intro s i rest hi
  obtain ⟨t, hs, ht, -⟩ := identifier_eq_read_iff.1 hi
  exact ⟨t, hs, ht⟩

theorem identifiers_complete {loose : Bool} {t rest : List Char} {is : List Identifier}
    (ht : Dotted (WritesIdentifier loose) t is) (hrest : Avoids isPartChar rest) :
    sepBy1 (literal ['.']) (identifier loose) (t ++ rest) = .read is rest := by
  refine dotted_complete ?_ ht hrest
  intro t i s hi hs
  exact identifier_eq_read_iff.2 ⟨t, rfl, hi, hs⟩

/-! ## Pre-releases -/

/-- A text that writes a pre-release: identifiers joined by points, after a dash. In the loose
notation the dash may be missing, unless the first identifier begins with a dash of its own or,
after a number, with a digit. -/
inductive WritesPreRelease (loose afterNumber : Bool) : List Char → List Identifier → Prop
  | dashed {t : List Char} {is : List Identifier} :
      Dotted (WritesIdentifier loose) t is → WritesPreRelease loose afterNumber ('-' :: t) is
  | bare {c : Char} {t : List Char} {is : List Identifier} :
      loose = true → c ≠ '-' → (afterNumber = true → c.isDigit = false) →
        Dotted (WritesIdentifier loose) (c :: t) is →
          WritesPreRelease loose afterNumber (c :: t) is

theorem dash_eq_read_iff {loose : Bool} {s mid : List Char} : dash loose s = .read () mid ↔
    s = '-' :: mid ∨ (loose = true ∧ Avoids (· == '-') s ∧ mid = s) := by
  cases loose with
  | false => simp [dash, literal_eq_read_iff]
  | true =>
    have hdash : dash true s = (optional (literal ['-']) s).andThen fun _ rest => .read () rest :=
      rfl
    rw [hdash, Outcome.andThen_eq_read_iff]
    constructor
    · rintro ⟨x, rest, hoptional, hread⟩
      obtain ⟨-, rfl⟩ := Outcome.read.inj hread
      rcases optional_eq_read_iff.1 hoptional with ⟨⟨⟩, rfl, hliteral⟩ | ⟨rfl, ⟨stop, hmiss⟩, rfl⟩
      · exact Or.inl (literal_eq_read_iff.1 hliteral)
      · refine Or.inr ⟨rfl, ?_, rfl⟩
        intro c hc
        obtain ⟨r, rfl⟩ := List.head?_eq_some_iff.1 hc
        refine Bool.eq_false_iff.2 fun hc => ?_
        obtain rfl : c = '-' := eq_of_beq hc
        exact nomatch (literal_append ['-'] r).symm.trans hmiss
    · rintro (rfl | ⟨-, havoids, rfl⟩)
      · exact ⟨some (), mid, optional_apply_of_read (literal_append ['-'] mid), rfl⟩
      · exact ⟨none, mid, (literal_singleton_misses havoids).optional_apply, rfl⟩

theorem preRelease_sound {loose afterNumber : Bool} {s rest : List Char} {is : List Identifier}
    (hs : loose = true → afterNumber = true → Avoids Char.isDigit s)
    (h : preRelease loose s = .read is rest) :
    ∃ t, s = t ++ rest ∧ WritesPreRelease loose afterNumber t is := by
  obtain ⟨⟨⟩, mid, hdash, his⟩ := bind_eq_read_iff.1 h
  obtain ⟨t, rfl, ht⟩ := identifiers_sound (within_eq_read_iff.1 his)
  rcases dash_eq_read_iff.1 hdash with rfl | ⟨hloose, havoids, rfl⟩
  · exact ⟨'-' :: t, rfl, .dashed ht⟩
  · obtain ⟨c, r, rfl, -⟩ := ht.exists_first WritesIdentifier.isWord
    refine ⟨c :: r, rfl, .bare hloose (by simpa using havoids) ?_ ht⟩
    intro hnumber
    simpa using hs hloose hnumber

theorem preRelease_complete {loose afterNumber : Bool} {t rest : List Char}
    {is : List Identifier} (ht : WritesPreRelease loose afterNumber t is)
    (hrest : Avoids isPartChar rest) : preRelease loose (t ++ rest) = .read is rest := by
  cases ht with
  | @dashed t _ ht =>
    exact bind_eq_read_iff.2 ⟨(), t ++ rest, dash_eq_read_iff.2 (Or.inl rfl),
      within_eq_read_iff.2 (identifiers_complete ht hrest)⟩
  | @bare c t _ hloose hc _ ht =>
    have hdash : dash loose (c :: t ++ rest) = .read () (c :: t ++ rest) :=
      dash_eq_read_iff.2 (Or.inr ⟨hloose, by simpa using hc, rfl⟩)
    exact bind_eq_read_iff.2 ⟨(), _, hdash, within_eq_read_iff.2 (identifiers_complete ht hrest)⟩

/-- A pre-release is missed where neither a dash nor a word stands. -/
theorem preRelease_misses (loose : Bool) {s : List Char} (h : Avoids isWordChar s) :
    Misses (preRelease loose) s := by
  have havoids : Avoids (· == '-') s := h.mono fun c hc => by
    rw [eq_of_beq hc]
    decide
  cases loose with
  | false => exact (literal_singleton_misses havoids : Misses (dash false) s).bind
  | true =>
    have hdash : dash true s = .read () s := dash_eq_read_iff.2 (Or.inr ⟨rfl, havoids, rfl⟩)
    exact .bind_of_read hdash (identifier_misses true h).sepBy1.within

/-! ## Build metadata -/

/-- A text that writes build metadata: words joined by points, after a plus sign. -/
inductive WritesBuild : List Char → List String → Prop
  | intro {t : List Char} {parts : List String} :
      Dotted (fun w part => IsWord w ∧ part = String.ofList w) t parts →
        WritesBuild ('+' :: t) parts

theorem buildPart_eq_read_iff {s rest : List Char} {part : String} :
    (String.ofList <$> word) s = .read part rest ↔
      ∃ w, s = w ++ rest ∧ (IsWord w ∧ part = String.ofList w) ∧ Avoids isWordChar rest := by
  rw [map_apply, Outcome.andThen_eq_read_iff]
  constructor
  · rintro ⟨w, mid, hword, hread⟩
    obtain ⟨rfl, hw, hrest⟩ := word_eq_read_iff.1 hword
    obtain ⟨rfl, rfl⟩ := Outcome.read.inj hread
    exact ⟨w, rfl, ⟨hw, rfl⟩, hrest⟩
  · rintro ⟨w, rfl, ⟨hw, rfl⟩, hrest⟩
    exact ⟨w, rest, word_eq_read_iff.2 ⟨rfl, hw, hrest⟩, rfl⟩

theorem buildMetadata_sound {s rest : List Char} {parts : List String}
    (h : buildMetadata s = .read parts rest) : ∃ t, s = t ++ rest ∧ WritesBuild t parts := by
  obtain ⟨⟨⟩, mid, hplus, hparts⟩ := bind_eq_read_iff.1 (within_eq_read_iff.1 h)
  obtain rfl := literal_eq_read_iff.1 hplus
  obtain ⟨t, rfl, ht⟩ := dotted_sound (G := fun w part => IsWord w ∧ part = String.ofList w)
    (fun hpart => let ⟨w, hs, hw, _⟩ := buildPart_eq_read_iff.1 hpart; ⟨w, hs, hw⟩) hparts
  exact ⟨'+' :: t, rfl, .intro ht⟩

theorem buildMetadata_complete {t rest : List Char} {parts : List String}
    (ht : WritesBuild t parts) (hrest : Avoids isPartChar rest) :
    buildMetadata (t ++ rest) = .read parts rest := by
  cases ht with
  | @intro t _ ht =>
    refine within_eq_read_iff.2 (bind_eq_read_iff.2 ⟨(), t ++ rest, literal_append ['+'] _, ?_⟩)
    refine dotted_complete ?_ ht hrest
    intro w part s hpart hs
    exact buildPart_eq_read_iff.2 ⟨w, rfl, hpart, hs⟩

theorem buildMetadata_misses {s : List Char} (h : Avoids (· == '+') s) :
    Misses buildMetadata s :=
  (literal_singleton_misses h).bind.within

/-! ## Qualifiers -/

/-- A text that writes what may follow a core: a pre-release and build metadata, both optional. -/
inductive WritesQualifier (loose afterNumber : Bool) :
    List Char → List Identifier → List String → Prop
  | intro {t u : List Char} {is : List Identifier} {parts : List String} :
      Optionally (WritesPreRelease loose afterNumber) t is → Optionally WritesBuild u parts →
        WritesQualifier loose afterNumber (t ++ u) is parts

/-- The characters that can continue a qualifier, or the number before it. -/
def isQualifierChar (c : Char) : Bool :=
  isPartChar c || c == '+'

theorem isPartChar_of_isWordChar {c : Char} (h : isWordChar c = true) : isPartChar c = true := by
  simp [isPartChar, h]

theorem isQualifierChar_of_isPartChar {c : Char} (h : isPartChar c = true) :
    isQualifierChar c = true := by
  simp [isQualifierChar, h]

theorem isQualifierChar_of_isDigit {c : Char} (h : c.isDigit = true) : isQualifierChar c = true :=
  isQualifierChar_of_isPartChar (isPartChar_of_isWordChar (isWordChar_of_isDigit h))

theorem qualifier_eq_read_iff {loose : Bool} {s rest : List Char} {is : List Identifier}
    {parts : List String} : qualifier loose s = .read (is, parts) rest ↔
      ∃ x y mid, optional (preRelease loose) s = .read x mid ∧
        optional buildMetadata mid = .read y rest ∧ is = x.getD [] ∧ parts = y.getD [] := by
  simp only [qualifier, bind_eq_read_iff, pure_apply, Outcome.read.injEq, Prod.mk.injEq]
  constructor
  · rintro ⟨x, mid, hx, y, mid', hy, ⟨rfl, rfl⟩, rfl⟩
    exact ⟨x, y, mid, hx, hy, rfl, rfl⟩
  · rintro ⟨x, y, mid, hx, hy, rfl, rfl⟩
    exact ⟨x, mid, hx, y, rest, hy, ⟨rfl, rfl⟩, rfl⟩

theorem qualifier_sound {loose afterNumber : Bool} {s rest : List Char} {is : List Identifier}
    {parts : List String} (hs : loose = true → afterNumber = true → Avoids Char.isDigit s)
    (h : qualifier loose s = .read (is, parts) rest) :
    ∃ t, s = t ++ rest ∧ WritesQualifier loose afterNumber t is parts := by
  obtain ⟨x, y, mid, hx, hy, rfl, rfl⟩ := qualifier_eq_read_iff.1 h
  obtain ⟨t, rfl, ht⟩ := optional_sound (fun h => preRelease_sound hs h) hx
  obtain ⟨u, rfl, hu⟩ := optional_sound (fun h => buildMetadata_sound h) hy
  exact ⟨t ++ u, by simp, .intro ht hu⟩

theorem Optionally.avoids_of_writesBuild {t rest : List Char} {parts : List String}
    (h : Optionally WritesBuild t parts) (hrest : Avoids isPartChar rest) :
    Avoids isPartChar (t ++ rest) := by
  cases h with
  | absent => exact hrest
  | present h =>
    cases h with
    | intro _ => exact avoids_cons_iff.2 (by decide)

theorem qualifier_complete {loose afterNumber : Bool} {t rest : List Char}
    {is : List Identifier} {parts : List String}
    (ht : WritesQualifier loose afterNumber t is parts) (hrest : Avoids isQualifierChar rest) :
    qualifier loose (t ++ rest) = .read (is, parts) rest := by
  have hpart : Avoids isPartChar rest := hrest.mono fun c => isQualifierChar_of_isPartChar
  cases ht with
  | @intro t u _ _ ht hu =>
    have havoids : Avoids isPartChar (u ++ rest) := hu.avoids_of_writesBuild hpart
    have hpre : ∃ x, optional (preRelease loose) (t ++ (u ++ rest)) = .read x (u ++ rest) ∧
        is = x.getD [] := by
      cases ht with
      | absent =>
        have hword := havoids.mono fun c => isPartChar_of_isWordChar
        exact ⟨none, (preRelease_misses loose hword).optional_apply, rfl⟩
      | present ht => exact ⟨some is, optional_apply_of_read (preRelease_complete ht havoids), rfl⟩
    have hbuild : ∃ y, optional buildMetadata (u ++ rest) = .read y rest ∧ parts = y.getD [] := by
      cases hu with
      | absent =>
        have hplus : Avoids (· == '+') rest := hrest.mono fun c hc => by
          simp only [isQualifierChar, hc, Bool.or_true]
        exact ⟨none, (buildMetadata_misses hplus).optional_apply, rfl⟩
      | present hu =>
        exact ⟨some parts, optional_apply_of_read (buildMetadata_complete hu hpart), rfl⟩
    obtain ⟨x, hx, rfl⟩ := hpre
    obtain ⟨y, hy, rfl⟩ := hbuild
    rw [List.append_assoc]
    exact qualifier_eq_read_iff.2 ⟨x, y, u ++ rest, hx, hy, rfl, rfl⟩

/-- Words joined by points consist of the characters that they may have. -/
theorem Dotted.isPartChar {α : Type} {G : List Char → α → Prop} {t : List Char} {as : List α}
    (hG : ∀ {t a}, G t a → IsWord t) (h : Dotted G t as) : ∀ c ∈ t, isPartChar c = true := by
  refine h.forall_mem ?_ fun u a hu c hc => isPartChar_of_isWordChar ((hG hu).2 c hc)
  intro u hu c hc
  obtain rfl : u = ['.'] := hu
  obtain rfl : c = '.' := by simpa using hc
  decide

theorem WritesPreRelease.isPartChar {loose afterNumber : Bool} {t : List Char}
    {is : List Identifier} (h : WritesPreRelease loose afterNumber t is) :
    ∀ c ∈ t, isPartChar c = true := by
  cases h with
  | dashed ht =>
    intro c hc
    rcases List.mem_cons.1 hc with rfl | hc
    · decide
    · exact ht.isPartChar WritesIdentifier.isWord c hc
  | bare _ _ _ ht => exact ht.isPartChar WritesIdentifier.isWord

theorem WritesBuild.isQualifierChar {t : List Char} {parts : List String}
    (h : WritesBuild t parts) : ∀ c ∈ t, isQualifierChar c = true := by
  cases h with
  | intro ht =>
    intro c hc
    rcases List.mem_cons.1 hc with rfl | hc
    · decide
    · exact isQualifierChar_of_isPartChar (ht.isPartChar And.left c hc)

/-- A qualifier consists of the characters that it may have. -/
theorem WritesQualifier.isQualifierChar {loose afterNumber : Bool} {t : List Char}
    {is : List Identifier} {parts : List String}
    (h : WritesQualifier loose afterNumber t is parts) : ∀ c ∈ t, isQualifierChar c = true := by
  cases h with
  | intro ht hu =>
    intro c hc
    rcases List.mem_append.1 hc with hc | hc
    · cases ht with
      | absent => exact nomatch hc
      | present ht => exact isQualifierChar_of_isPartChar (ht.isPartChar c hc)
    · cases hu with
      | absent => exact nomatch hc
      | present hu => exact hu.isQualifierChar c hc

/-- After a number a qualifier begins with no digit. -/
theorem WritesQualifier.avoids_isDigit {loose : Bool} {t rest : List Char} {is : List Identifier}
    {parts : List String} (ht : WritesQualifier loose true t is parts)
    (hrest : Avoids Char.isDigit rest) : Avoids Char.isDigit (t ++ rest) := by
  cases ht with
  | intro ht hu =>
    cases ht with
    | present ht =>
      cases ht with
      | dashed => exact avoids_cons_iff.2 (by decide)
      | bare _ _ hc => exact avoids_cons_iff.2 (hc rfl)
    | absent =>
      cases hu with
      | absent => exact hrest
      | present hu =>
        cases hu with
        | intro => exact avoids_cons_iff.2 (by decide)

/-! ## Versions -/

/-- A text that writes a version: three numbers joined by points, and a qualifier. In the loose
notation a run of `v`, `V`, `=`, space and tab may stand before them. -/
inductive WritesVersion (loose : Bool) :
    List Char → Core → List Identifier → List String → Prop
  | intro {lead a b c q : List Char} {major minor patch : Nat} {is : List Identifier}
      {parts : List String} :
      (∀ x ∈ lead, isLeader x = true) → (loose = true ∨ lead = []) →
        WritesNumber loose a major → WritesNumber loose b minor → WritesNumber loose c patch →
          WritesQualifier loose true q is parts →
            WritesVersion loose (lead ++ (a ++ '.' :: (b ++ '.' :: (c ++ q))))
              ⟨major, minor, patch⟩ is parts

theorem isDigit_apart_isLeader : Apart Char.isDigit isLeader := by
  refine (apart_of_all ['v', 'V', '=', ' ', '\t'] (fun c hc => ?_) (by decide)).symm
  simpa [isLeader, isInlineSpace, or_assoc] using hc

theorem leaders_eq_read_iff {loose : Bool} {s mid : List Char} :
    leaders loose s = .read () mid ↔ ∃ lead, s = lead ++ mid ∧ (∀ x ∈ lead, isLeader x = true) ∧
      (loose = true ∧ Avoids isLeader mid ∨ loose = false ∧ lead = []) := by
  cases loose with
  | false =>
    show Outcome.read () s = .read () mid ↔ _
    constructor
    · rintro ⟨⟩
      exact ⟨[], rfl, by simp, Or.inr ⟨rfl, rfl⟩⟩
    · rintro ⟨lead, rfl, -, ⟨h, -⟩ | ⟨-, rfl⟩⟩
      · exact nomatch h
      · rfl
  | true =>
    show (charsWhile isLeader s).andThen (fun _ rest => .read () rest) = .read () mid ↔ _
    rw [Outcome.andThen_eq_read_iff]
    constructor
    · rintro ⟨lead, rest, hlead, hread⟩
      obtain ⟨-, rfl⟩ := Outcome.read.inj hread
      obtain ⟨rfl, hall, hrest⟩ := charsWhile_eq_read_iff.1 hlead
      exact ⟨lead, rfl, hall, Or.inl ⟨rfl, hrest⟩⟩
    · rintro ⟨lead, rfl, hall, ⟨-, hrest⟩ | ⟨h, -⟩⟩
      · exact ⟨lead, mid, charsWhile_eq_read_iff.2 ⟨rfl, hall, hrest⟩, rfl⟩
      · exact nomatch h

theorem core_eq_read_iff {loose : Bool} {s rest : List Char} {core : Core} :
    Reader.core loose s = .read core rest ↔
      ∃ s₁ s₂, number loose s = .read core.major ('.' :: s₁) ∧
        number loose s₁ = .read core.minor ('.' :: s₂) ∧
          number loose s₂ = .read core.patch rest := by
  simp only [Reader.core, within_eq_read_iff, bind_eq_read_iff, literal_eq_read_iff, pure_apply,
    Outcome.read.injEq]
  constructor
  · rintro ⟨major, _, hmajor, -, s₁, rfl, minor, _, hminor, -, s₂, rfl, patch, _, hpatch, rfl, rfl⟩
    exact ⟨s₁, s₂, hmajor, hminor, hpatch⟩
  · rintro ⟨s₁, s₂, hmajor, hminor, hpatch⟩
    exact ⟨_, _, hmajor, (), s₁, rfl, _, _, hminor, (), s₂, rfl, _, _, hpatch, rfl, rfl⟩

theorem version_eq_read_iff {loose : Bool} {s rest : List Char} {v : Version} :
    Reader.version loose s = .read v rest ↔
      ∃ s₁ s₂ core is parts, leaders loose s = .read () s₁ ∧ Reader.core loose s₁ = .read core s₂ ∧
        qualifier loose s₂ = .read (is, parts) rest ∧
          v = { core, preRelease := is, build := parts } := by
  simp only [Reader.version, bind_eq_read_iff, pure_apply, Outcome.read.injEq]
  constructor
  · rintro ⟨⟨⟩, s₁, hlead, core, s₂, hcore, ⟨is, parts⟩, s₃, hqualifier, rfl, rfl⟩
    exact ⟨s₁, s₂, core, is, parts, hlead, hcore, hqualifier, rfl⟩
  · rintro ⟨s₁, s₂, core, is, parts, hlead, hcore, hqualifier, rfl⟩
    exact ⟨(), s₁, hlead, core, s₂, hcore, (is, parts), rest, hqualifier, rfl, rfl⟩

/-- What is read as a version writes it. -/
theorem version_sound {loose : Bool} {s rest : List Char} {v : Version}
    (h : Reader.version loose s = .read v rest) :
    ∃ t core is parts, s = t ++ rest ∧ WritesVersion loose t core is parts ∧
      v = { core, preRelease := is, build := parts } := by
  obtain ⟨s₁, s₂, ⟨major, minor, patch⟩, is, parts, hlead, hcore, hqualifier, rfl⟩ :=
    version_eq_read_iff.1 h
  obtain ⟨lead, rfl, hall, hloose⟩ := leaders_eq_read_iff.1 hlead
  obtain ⟨s₃, s₄, hmajor, hminor, hpatch⟩ := core_eq_read_iff.1 hcore
  obtain ⟨a, rfl, ha, -⟩ := number_sound hmajor
  obtain ⟨b, rfl, hb, -⟩ := number_sound hminor
  obtain ⟨c, rfl, hc, hdigit⟩ := number_sound hpatch
  obtain ⟨q, rfl, hq⟩ := qualifier_sound (fun hl _ => hdigit hl) hqualifier
  have hlead' : loose = true ∨ lead = [] := hloose.imp And.left And.right
  exact ⟨_, _, is, parts, by simp, .intro hall hlead' ha hb hc hq, rfl⟩

/-- A text that writes a version is read as that version, to its end. -/
theorem version_complete {loose : Bool} {t : List Char} {core : Core} {is : List Identifier}
    {parts : List String} (ht : WritesVersion loose t core is parts) :
    Reader.version loose t = .read { core, preRelease := is, build := parts } [] := by
  cases ht with
  | @intro lead a b c q major minor patch _ _ hall hloose ha hb hc hq =>
    have hpoint : ∀ s, Avoids Char.isDigit ('.' :: s) := fun s => avoids_cons_iff.2 (by decide)
    have hqualifier : qualifier loose q = .read (is, parts) [] := by
      simpa using qualifier_complete hq (avoids_nil _)
    have hdigit : Avoids Char.isDigit q := by
      simpa using hq.avoids_isDigit (avoids_nil _)
    have hcore : Reader.core loose (a ++ '.' :: (b ++ '.' :: (c ++ q))) =
        .read ⟨major, minor, patch⟩ q :=
      core_eq_read_iff.2 ⟨b ++ '.' :: (c ++ q), c ++ q, number_complete ha (hpoint _),
        number_complete hb (hpoint _), number_complete hc hdigit⟩
    have hlead : leaders loose (lead ++ (a ++ '.' :: (b ++ '.' :: (c ++ q)))) =
        .read () (a ++ '.' :: (b ++ '.' :: (c ++ q))) := by
      refine leaders_eq_read_iff.2 ⟨lead, rfl, hall, ?_⟩
      cases loose with
      | true => exact Or.inl ⟨rfl, ha.avoids isDigit_apart_isLeader _⟩
      | false => exact Or.inr ⟨rfl, hloose.resolve_left nofun⟩
    exact version_eq_read_iff.2 ⟨_, q, _, is, parts, hlead, hcore, hqualifier, rfl⟩

end SemanticVersioning
