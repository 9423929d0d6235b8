import SemanticVersioning.Reader.Basic

/-!
# What readers take from a text

A reader is exact for a notation if two statements hold. What it reads is a text of the notation
that stands in front of the rest (soundness), and a text of the notation is read, no less and no
more of it, wherever the rest cannot continue it (completeness). This module has the parts from
which both are put together.

* `Text.Avoids`: the rest does not begin with a character of a class. This is what a scanner
  leaves behind, and what completeness asks of the rest.
* `Text.Apart`: two classes have no character in common, so that one scanner stops where another
  begins.
* `charsWhile_eq_read_iff`, `charsWhile1_eq_read_iff`, `literal_eq_read_iff`: the scanners.
* `Reader.Misses`, and how a miss passes through the combinators. An alternative is tried, and an
  optional part is absent, only where a miss was proved.
* `Separated`: the notation of lists of items with separators between them. `sepBy1_sound` and
  `sepBy1_complete` tie it to the list reader.

## Separators that take more than their own text

The blanks between two items may belong to the separator or to the item after it. The reader gives
all of them to the separator, a derivation need not. Both list theorems therefore have a class `p`
of characters that a separator takes along. Soundness has every item begin outside of `p`.
Completeness asks that a list stays one if such characters are dropped from its front, and then
follows the reader, which stands at the shortened text.
-/

namespace SemanticVersioning

variable {α β : Type}

/-! ## Texts that do not begin with a character of a class -/

namespace Text

/-- The text does not begin with a character of the class. -/
def Avoids (p : Char → Bool) (s : List Char) : Prop :=
  ∀ c ∈ s.head?, p c = false

@[simp] theorem avoids_nil (p : Char → Bool) : Avoids p [] := by
  intro c hc
  exact absurd hc (by simp)

@[simp] theorem avoids_cons_iff {p : Char → Bool} {c : Char} {s : List Char} :
    Avoids p (c :: s) ↔ p c = false := by
  simp [Avoids]

theorem avoids_dropWhile (p : Char → Bool) (s : List Char) : Avoids p (s.dropWhile p) := by
  intro c hc
  have h := List.head?_dropWhile_not p s
  rw [Option.mem_def.1 hc] at h
  simpa using h

/-- What avoids a class avoids each smaller one. -/
theorem Avoids.mono {p q : Char → Bool} {s : List Char} (h : Avoids p s)
    (hqp : ∀ c, q c = true → p c = true) : Avoids q s := by
  intro c hc
  have hpc := h c hc
  cases hq : q c with
  | false => rfl
  | true => rw [hqp c hq] at hpc; exact hpc

theorem Avoids.append {p : Char → Bool} {s t : List Char} (hs : Avoids p s) (ht : Avoids p t) :
    Avoids p (s ++ t) := by
  cases s with
  | nil => exact ht
  | cons c s => exact avoids_cons_iff.2 (avoids_cons_iff.1 hs)

theorem Avoids.dropWhile_eq {p : Char → Bool} {s : List Char} (h : Avoids p s) :
    s.dropWhile p = s := by
  cases s with
  | nil => rfl
  | cons c s => rw [List.dropWhile_cons, if_neg (by simpa using h)]

theorem Avoids.append_of_ne_nil {p : Char → Bool} {s : List Char} (h : Avoids p s) (hs : s ≠ [])
    (t : List Char) : Avoids p (s ++ t) := by
  obtain ⟨c, r, rfl⟩ := List.exists_cons_of_ne_nil hs
  exact avoids_cons_iff.2 (avoids_cons_iff.1 h)

/-- Nothing is dropped of a text that avoids the class, whatever is dropped in front of it. -/
theorem Avoids.dropWhile_append {p : Char → Bool} {t : List Char} (h : Avoids p t)
    (s : List Char) : (s ++ t).dropWhile p = s.dropWhile p ++ t := by
  rw [List.dropWhile_append, h.dropWhile_eq]
  split
  case isTrue hs => rw [List.isEmpty_iff.1 hs, List.nil_append]
  case isFalse => rfl

/-- No character is in both classes. -/
def Apart (p q : Char → Bool) : Prop :=
  ∀ c, p c = true → q c = false

theorem Apart.symm {p q : Char → Bool} (h : Apart p q) : Apart q p := by
  intro c hq
  refine Bool.eq_false_iff.2 fun hp => ?_
  rw [h c hp] at hq
  exact nomatch hq

theorem Apart.mono {p q p' q' : Char → Bool} (h : Apart p q)
    (hp : ∀ c, p' c = true → p c = true) (hq : ∀ c, q' c = true → q c = true) : Apart p' q' := by
  intro c hc
  refine Bool.eq_false_iff.2 fun hc' => ?_
  have hfalse := h c (hp c hc)
  rw [hq c hc'] at hfalse
  exact nomatch hfalse

/-- A class of few characters is apart from another if none of them is in it. -/
theorem apart_of_all {p q : Char → Bool} (cs : List Char) (hp : ∀ c, p c = true → c ∈ cs)
    (hq : cs.all (fun c => !q c) = true) : Apart p q := by
  intro c hc
  simpa using List.all_eq_true.1 hq c (hp c hc)

theorem takeWhile_append_eq {p : Char → Bool} {t s : List Char} (ht : ∀ c ∈ t, p c = true)
    (hs : Avoids p s) : (t ++ s).takeWhile p = t := by
  rw [List.takeWhile_append_of_pos ht]
  cases s with
  | nil => simp
  | cons c s => simp_all

theorem dropWhile_append_eq {p : Char → Bool} {t : List Char} (ht : ∀ c ∈ t, p c = true)
    (s : List Char) : (t ++ s).dropWhile p = s.dropWhile p :=
  List.dropWhile_append_of_pos ht

/-- Nothing is dropped beyond a text of which something is left. -/
theorem dropWhile_append_of_ne_nil {p : Char → Bool} {t : List Char} (ht : t.dropWhile p ≠ [])
    (s : List Char) : (t ++ s).dropWhile p = t.dropWhile p ++ s := by
  rw [List.dropWhile_append, if_neg]
  rwa [List.isEmpty_iff]

theorem Avoids.of_append {p : Char → Bool} {s t : List Char} (h : Avoids p (s ++ t)) :
    Avoids p s := by
  cases s with
  | nil => exact avoids_nil p
  | cons c s => exact avoids_cons_iff.2 (avoids_cons_iff.1 h)

/-- A text without characters of a class does not end in one. -/
theorem avoids_reverse {p : Char → Bool} {t : List Char} (ht : ∀ c ∈ t, p c = false) :
    Avoids p t.reverse :=
  fun c hc => ht c (List.mem_reverse.1 (List.mem_of_mem_head? hc))

/-- A text does not end in a character of a class if the last part of it that is not empty has
none. -/
theorem avoids_reverse_append {p : Char → Bool} {s t : List Char}
    (hs : t = [] → Avoids p s.reverse) (ht : ∀ c ∈ t, p c = false) :
    Avoids p (s ++ t).reverse := by
  have hend : Avoids p t.reverse := avoids_reverse ht
  rw [List.reverse_append]
  cases hrev : t.reverse with
  | nil => exact hs (List.reverse_eq_nil_iff.1 hrev)
  | cons c r =>
    rw [hrev] at hend
    exact avoids_cons_iff.2 (avoids_cons_iff.1 hend)

/-- What begins with a character of one class avoids each class apart from it. -/
theorem avoids_of_first {p q : Char → Bool} {t : List Char}
    (ht : ∃ c r, t = c :: r ∧ q c = true) (hp : Apart q p) (s : List Char) :
    Avoids p (t ++ s) := by
  obtain ⟨c, r, rfl, hc⟩ := ht
  exact avoids_cons_iff.2 (hp c hc)

end Text

open Text

namespace Reader

/-! ## Scanners -/

theorem charsWhile_eq_read_iff {p : Char → Bool} {s t rest : List Char} :
    charsWhile p s = .read t rest ↔
      s = t ++ rest ∧ (∀ c ∈ t, p c = true) ∧ Avoids p rest := by
  rw [charsWhile_apply]
  constructor
  · rintro ⟨⟩
    exact ⟨List.takeWhile_append_dropWhile.symm, List.all_eq_true.1 List.all_takeWhile,
      avoids_dropWhile p s⟩
  · rintro ⟨rfl, ht, hrest⟩
    rw [takeWhile_append_eq ht hrest, dropWhile_append_eq ht, hrest.dropWhile_eq]

theorem charsWhile1_eq_read_iff {p : Char → Bool} {s t rest : List Char} :
    charsWhile1 p s = .read t rest ↔
      s = t ++ rest ∧ t ≠ [] ∧ (∀ c ∈ t, p c = true) ∧ Avoids p rest := by
  have hw : charsWhile p s = .read t rest ↔ s = t ++ rest ∧ (∀ c ∈ t, p c = true) ∧
      Avoids p rest := charsWhile_eq_read_iff
  rw [charsWhile_apply] at hw
  rw [charsWhile1_apply]
  split
  case isTrue h =>
    constructor
    · intro h'
      cases h'
    · rintro ⟨rfl, hne, ht, hrest⟩
      rw [takeWhile_append_eq ht hrest] at h
      exact absurd h hne
  case isFalse h =>
    rw [hw]
    constructor
    · rintro ⟨hs, ht, hrest⟩
      refine ⟨hs, ?_, ht, hrest⟩
      rintro rfl
      rw [hs, takeWhile_append_eq ht hrest] at h
      exact h rfl
    · rintro ⟨hs, _, ht, hrest⟩
      exact ⟨hs, ht, hrest⟩

theorem literal_eq_read_iff {t s rest : List Char} {x : Unit} :
    literal t s = .read x rest ↔ s = t ++ rest := by
  rw [literal_apply]
  split
  case isTrue h =>
    obtain ⟨u, rfl⟩ := h
    simp [eq_comm]
  case isFalse h =>
    constructor
    · intro h'
      cases h'
    · rintro rfl
      exact absurd (List.prefix_append t rest) h

/-! ## Misses -/

/-- The reader misses on the text, wherever it stops. -/
def Misses (p : Reader α) (s : List Char) : Prop :=
  ∃ stop, p s = .missed stop

theorem charsWhile1_misses {p : Char → Bool} {s : List Char} (h : Avoids p s) :
    Misses (charsWhile1 p) s := by
  refine ⟨⟨s, none⟩, ?_⟩
  rw [charsWhile1_apply, if_pos]
  cases s with
  | nil => rfl
  | cons c s => simp_all

theorem literal_misses {t s : List Char} (h : ¬ t <+: s) : Misses (literal t) s :=
  ⟨⟨s, none⟩, by rw [literal_apply, if_neg h]⟩

/-- A literal of one character misses unless the text begins with that character. -/
theorem literal_singleton_misses {c : Char} {s : List Char} (h : Avoids (· == c) s) :
    Misses (literal [c]) s := by
  refine literal_misses ?_
  rintro ⟨r, rfl⟩
  simp at h

theorem Misses.bind {p : Reader α} {next : α → Reader β} {s : List Char} (h : Misses p s) :
    Misses (p >>= next) s := by
  obtain ⟨stop, h⟩ := h
  exact ⟨stop, by rw [bind_apply, h, Outcome.andThen_missed]⟩

/-- A miss after something was read is a miss all the same. -/
theorem Misses.bind_of_read {p : Reader α} {next : α → Reader β} {s mid : List Char} {a : α}
    (hp : p s = .read a mid) (h : Misses (next a) mid) : Misses (p >>= next) s := by
  obtain ⟨stop, h⟩ := h
  exact ⟨stop, by rw [bind_apply, hp, Outcome.andThen_read, h]⟩

theorem Misses.map {p : Reader α} {f : α → β} {s : List Char} (h : Misses p s) :
    Misses (f <$> p) s := by
  obtain ⟨stop, h⟩ := h
  exact ⟨stop, by rw [map_apply, h, Outcome.andThen_missed]⟩

theorem Misses.checked {p : Reader α} {check : α → Except (ErrorKind × Option Production) β}
    {s : List Char} (h : Misses p s) : Misses (p.checked check) s := by
  obtain ⟨stop, h⟩ := h
  exact ⟨stop, by rw [checked_apply, h, Outcome.andThen_missed]⟩

theorem Misses.within {p : Reader α} {production : Production} {s : List Char} (h : Misses p s) :
    Misses (within production p) s := by
  obtain ⟨stop, h⟩ := h
  exact ⟨stop.within production, by simp only [Reader.within, h]⟩

theorem Misses.spelled {p : Reader α} {s : List Char} (h : Misses p s) : Misses (spelled p) s := by
  obtain ⟨stop, h⟩ := h
  exact ⟨stop, by simp only [Reader.spelled, h, Outcome.andThen_missed]⟩

theorem Misses.orElse {p q : Reader α} {s : List Char} (hp : Misses p s) (hq : Misses q s) :
    Misses (p.orElse q) s := by
  obtain ⟨stop, hp⟩ := hp
  obtain ⟨stop', hq⟩ := hq
  exact ⟨stop', by simp only [Reader.orElse, hp, hq]⟩

/-- Where the first alternative misses, the second is all there is. -/
theorem Misses.orElse_apply {p q : Reader α} {s : List Char} (h : Misses p s) :
    p.orElse q s = q s := by
  obtain ⟨stop, h⟩ := h
  simp only [Reader.orElse, h]

theorem Misses.optional_apply {p : Reader α} {s : List Char} (h : Misses p s) :
    optional p s = .read none s :=
  optional_eq_read_none_iff.2 ⟨h, rfl⟩

theorem orElse_apply_of_read {p q : Reader α} {s rest : List Char} {a : α}
    (h : p s = .read a rest) : p.orElse q s = .read a rest :=
  orElse_eq_read_iff.2 (Or.inl h)

theorem optional_apply_of_read {p : Reader α} {s rest : List Char} {a : α}
    (h : p s = .read a rest) : optional p s = .read (some a) rest :=
  optional_eq_read_some_iff.2 h

/-- What an optional part reads. -/
theorem optional_eq_read_iff {p : Reader α} {s rest : List Char} {x : Option α} :
    optional p s = .read x rest ↔
      (∃ a, x = some a ∧ p s = .read a rest) ∨ (x = none ∧ Misses p s ∧ rest = s) := by
  cases x with
  | some a => simp [optional_eq_read_some_iff]
  | none => simp [optional_eq_read_none_iff, Misses]

/-! ## Lists -/

variable {separator : Reader Unit} {item : Reader α}

theorem sepBy1_eq_read_iff {s rest : List Char} {as : List α} :
    sepBy1 separator item s = .read as rest ↔
      ∃ a mid as', item s = .read a mid ∧ furtherItems separator item mid = .read as' rest ∧
        as = a :: as' := by
  rw [sepBy1, Outcome.andThen_eq_read_iff]
  simp only [Outcome.andThen_eq_read_iff, Outcome.read.injEq]
  constructor
  · rintro ⟨a, mid, hitem, as', _, hfurther, rfl, rfl⟩
    exact ⟨a, mid, as', hitem, hfurther, rfl⟩
  · rintro ⟨a, mid, as', hitem, hfurther, rfl⟩
    exact ⟨a, mid, hitem, as', rest, hfurther, rfl, rfl⟩

/-- A list with no first item is missed. -/
theorem Misses.sepBy1 {s : List Char} (h : Misses item s) :
    Misses (sepBy1 separator item) s := by
  obtain ⟨stop, h⟩ := h
  exact ⟨stop, by simp only [Reader.sepBy1, h, Outcome.andThen_missed]⟩

/-- Further items are none, or a separator and a list. -/
theorem furtherItems_eq_read_imp {s rest : List Char} {as : List α}
    (h : furtherItems separator item s = .read as rest) :
    (as = [] ∧ rest = s) ∨
      ∃ mid, separator s = .read () mid ∧ sepBy1 separator item mid = .read as rest := by
  rw [furtherItems] at h
  split at h
  case h_1 a mid hround =>
    obtain ⟨⟨⟩, mid', hsep, hitem⟩ := bind_eq_read_iff.1 hround
    split at h
    case isTrue hlt =>
      obtain ⟨as', rest', hfurther, hread⟩ := Outcome.andThen_eq_read_iff.1 h
      obtain ⟨rfl, rfl⟩ := Outcome.read.inj hread
      exact Or.inr ⟨mid', hsep, sepBy1_eq_read_iff.2 ⟨a, mid, as', hitem, hfurther, rfl⟩⟩
    case isFalse =>
      obtain ⟨rfl, rfl⟩ := Outcome.read.inj h
      exact Or.inl ⟨rfl, rfl⟩
  case h_2 =>
    obtain ⟨rfl, rfl⟩ := Outcome.read.inj h
    exact Or.inl ⟨rfl, rfl⟩
  case h_3 =>
    cases h

/-- The list ends where no further item can be read. -/
theorem furtherItems_of_misses {s : List Char} (h : Misses (separator >>= fun _ => item) s) :
    furtherItems separator item s = .read [] s := by
  obtain ⟨stop, h⟩ := h
  rw [furtherItems, h]

/-- The list goes on after a separator that takes something from the text. -/
theorem furtherItems_of_read {s mid after rest : List Char} {a : α} {as : List α}
    (hsep : separator s = .read () mid) (hitem : item mid = .read a after)
    (hlt : after.length < s.length) (hfurther : furtherItems separator item after = .read as rest) :
    furtherItems separator item s = .read (a :: as) rest := by
  have hround : (separator >>= fun _ => item) s = .read a after :=
    bind_eq_read_iff.2 ⟨(), mid, hsep, hitem⟩
  rw [furtherItems, hround]
  simp only [hlt, if_true, hfurther, Outcome.andThen_read]

end Reader

/-- A part that may be absent, and then writes the empty list. -/
inductive Optionally (G : List Char → List α → Prop) : List Char → List α → Prop
  | absent : Optionally G [] []
  | present {t : List Char} {as : List α} : G t as → Optionally G t as

theorem Reader.optional_sound {G : List Char → List α → Prop} {p : Reader (List α)}
    {s rest : List Char} {x : Option (List α)}
    (hp : ∀ {as}, p s = .read as rest → ∃ t, s = t ++ rest ∧ G t as)
    (h : optional p s = .read x rest) : ∃ t, s = t ++ rest ∧ Optionally G t (x.getD []) := by
  rcases optional_eq_read_iff.1 h with ⟨as, rfl, has⟩ | ⟨rfl, -, rfl⟩
  · obtain ⟨t, rfl, ht⟩ := hp has
    exact ⟨t, rfl, .present ht⟩
  · exact ⟨[], rfl, .absent⟩

/-- One or more items with a separator between neighbours: the text of the list, and the values of
its items. -/
inductive Separated (S : List Char → Prop) (G : List Char → α → Prop) :
    List Char → List α → Prop
  | single {t : List Char} {a : α} : G t a → Separated S G t [a]
  | cons {t u r : List Char} {a : α} {as : List α} :
      G t a → S u → Separated S G r as → Separated S G (t ++ (u ++ r)) (a :: as)

namespace Separated

variable {S : List Char → Prop} {G : List Char → α → Prop} {t : List Char} {as : List α}

theorem ne_nil (h : Separated S G t as) : as ≠ [] := by
  cases h <;> exact List.cons_ne_nil _ _

/-- Each item of a list was written by some part of its text. -/
theorem exists_of_mem (h : Separated S G t as) {a : α} (ha : a ∈ as) : ∃ u, G u a := by
  induction h with
  | @single t b ht =>
    obtain rfl : a = b := by simpa using ha
    exact ⟨t, ht⟩
  | @cons t u r b as ht _ _ ih =>
    rcases List.mem_cons.1 ha with rfl | ha
    · exact ⟨t, ht⟩
    · exact ih ha

/-- What stands in the texts of the items stands in the text of a list, in the same order. -/
theorem sublist_flatMap {f : α → List Char} (hG : ∀ u a, G u a → (f a).Sublist u)
    (h : Separated S G t as) : (as.flatMap f).Sublist t := by
  induction h with
  | single ht =>
    rw [List.flatMap_singleton]
    exact hG _ _ ht
  | @cons t u r a as ht _ _ ih =>
    rw [List.flatMap_cons]
    exact (hG t a ht).append (ih.trans (List.sublist_append_right u r))

/-- What holds of the characters of items and separators holds of those of a list. -/
theorem forall_mem {P : Char → Prop} (hS : ∀ u, S u → ∀ c ∈ u, P c)
    (hG : ∀ u a, G u a → ∀ c ∈ u, P c) (h : Separated S G t as) : ∀ c ∈ t, P c := by
  induction h with
  | single ht => exact hG _ _ ht
  | cons ht hu _ ih =>
    intro c hc
    rcases List.mem_append.1 hc with hc | hc
    · exact hG _ _ ht c hc
    · rcases List.mem_append.1 hc with hc | hc
      · exact hS _ hu c hc
      · exact ih c hc

/-- A list begins as its first item does. -/
theorem exists_first (h : Separated S G t as) : ∃ u v a, t = u ++ v ∧ G u a := by
  cases h with
  | @single t a ht => exact ⟨t, [], a, by simp, ht⟩
  | @cons t u r a as ht hu hr => exact ⟨t, u ++ r, a, rfl, ht⟩

/-- The texts of some items with one separator between them are the text of their list. -/
theorem intercalate {β : Type} {sep : List Char} (hsep : S sep) {text : β → List Char}
    {value : β → α} {bs : List β} (hne : bs ≠ []) (h : ∀ b ∈ bs, G (text b) (value b)) :
    Separated S G (sep.intercalate (bs.map text)) (bs.map value) := by
  induction bs with
  | nil => exact absurd rfl hne
  | cons b bs ih =>
    have hb : G (text b) (value b) := h b (by simp)
    cases bs with
    | nil =>
      rw [List.map_singleton, List.map_singleton, List.intercalate_singleton]
      exact .single hb
    | cons b' bs =>
      rw [List.map_cons, List.map_cons, List.intercalate_cons_cons, List.append_assoc]
      exact .cons hb hsep (ih (by simp) fun c hc => h c (List.mem_cons_of_mem b hc))

/-- A relation between what is written in one way and what is written in any way carries over from
the separators and items to lists of them, if it carries over to texts put together. -/
theorem rel_intercalate {R : List Char → List Char → Prop}
    (happend : ∀ {s s' u u'}, R s s' → R u u' → R (s ++ u) (s' ++ u')) {sep : List Char}
    (hS : ∀ u, S u → R sep u) {text : α → List Char} (hG : ∀ u a, G u a → R (text a) u)
    (h : Separated S G t as) : R (sep.intercalate (as.map text)) t := by
  induction h with
  | @single t a ht =>
    rw [List.map_singleton, List.intercalate_singleton]
    exact hG t a ht
  | @cons t u r a as ht hu hr ih =>
    have hne : as.map text ≠ [] := by simpa using hr.ne_nil
    rw [List.map_cons, List.intercalate_cons_of_ne_nil hne, List.append_assoc]
    exact happend (hG t a ht) (happend (hS u hu) ih)

/-- Where separators and items are written in one way only, so are lists of them. -/
theorem eq_intercalate {sep : List Char} (hS : ∀ u, S u → u = sep) {text : α → List Char}
    (hG : ∀ u a, G u a → u = text a) (h : Separated S G t as) :
    t = sep.intercalate (as.map text) :=
  (h.rel_intercalate (R := Eq) (fun hs hu => by rw [hs, hu]) (fun u hu => (hS u hu).symm)
    fun u a hu => (hG u a hu).symm).symm

end Separated

namespace Reader

variable {S : List Char → Prop} {G : List Char → α → Prop} {p : Char → Bool}
  {separator : Reader Unit} {item : Reader α}

/-- **What the list reader reads is a list.**  The induction is on the values read: a list is an
item, and then a separator with a shorter list after it, or nothing. -/
theorem sepBy1_sound
    (hsep : ∀ {s mid}, separator s = .read () mid → ∃ u, s = u ++ mid ∧ S u ∧ Avoids p mid)
    (hitem : ∀ {s a rest}, Avoids p s → item s = .read a rest → ∃ t, s = t ++ rest ∧ G t a)
    {as : List α} {s rest : List Char} (hs : Avoids p s)
    (h : sepBy1 separator item s = .read as rest) :
    ∃ t, s = t ++ rest ∧ Separated S G t as := by
  induction as generalizing s with
  | nil =>
    obtain ⟨a, mid, as', -, -, hnil⟩ := sepBy1_eq_read_iff.1 h
    exact nomatch hnil
  | cons a as ih =>
    obtain ⟨b, mid, as', hread, hfurther, hcons⟩ := sepBy1_eq_read_iff.1 h
    obtain ⟨rfl, rfl⟩ := List.cons.inj hcons
    obtain ⟨t, rfl, ht⟩ := hitem hs hread
    rcases furtherItems_eq_read_imp hfurther with ⟨rfl, rfl⟩ | ⟨mid', hu, hr⟩
    · exact ⟨t, rfl, .single ht⟩
    · obtain ⟨u, rfl, hu', hmid⟩ := hsep hu
      obtain ⟨r, rfl, hr'⟩ := ih hmid hr
      exact ⟨t ++ (u ++ r), by simp, .cons ht hu' hr'⟩

/-- **A list is read as a whole** in front of a rest at which it ends.  The reader stands outside
of `p` after each separator, so the induction is on the values, for all texts that write them:
after a separator the text of the remaining list is not the one of the derivation, but that text
without the characters that the separator took along. -/
theorem sepBy1_complete (Follow : List Char → Prop) {rest : List Char}
    (hsep : ∀ {u} s, S u → u ≠ [] ∧ separator (u ++ s) = .read () (s.dropWhile p))
    (hitem : ∀ {t a s}, G t a → Avoids p (t ++ s) → Follow s → item (t ++ s) = .read a s)
    (hdrop : ∀ {t as}, Separated S G t as →
      ∃ t', (t ++ rest).dropWhile p = t' ++ rest ∧ Separated S G t' as)
    (hfollow : ∀ {u t as}, S u → Separated S G t as → Follow (u ++ (t ++ rest)))
    (hrest : Follow rest) (hend : Misses (separator >>= fun _ => item) rest)
    {as : List α} {t : List Char} (ht : Separated S G t as) (hp : Avoids p (t ++ rest)) :
    sepBy1 separator item (t ++ rest) = .read as rest := by
  -- the first item of a list is read, and leaves no more than the list had
  have hfirst : ∀ {t a as}, Separated S G t (a :: as) → Avoids p (t ++ rest) →
      ∃ v, v.length ≤ t.length ∧ item (t ++ rest) = .read a (v ++ rest) := by
    intro t a as ht hp
    cases ht with
    | single ht => exact ⟨[], by simp, hitem ht hp hrest⟩
    | @cons t u r _ _ ht hu hr =>
      rw [List.append_assoc] at hp ⊢
      have hfol : Follow ((u ++ r) ++ rest) := by simpa using hfollow hu hr
      exact ⟨u ++ r, by simp, hitem ht hp hfol⟩
  induction as generalizing t with
  | nil => exact nomatch ht
  | cons a as ih =>
    cases ht with
    | single ht =>
      exact sepBy1_eq_read_iff.2
        ⟨a, rest, [], hitem ht hp hrest, furtherItems_of_misses hend, rfl⟩
    | @cons t u r _ _ ht hu hr =>
      rw [List.append_assoc, List.append_assoc] at hp ⊢
      obtain ⟨hne, hskip⟩ := hsep (r ++ rest) hu
      obtain ⟨r', hdropped, hr'⟩ := hdrop hr
      rw [hdropped] at hskip
      have hp' : Avoids p (r' ++ rest) := hdropped ▸ avoids_dropWhile p (r ++ rest)
      obtain ⟨b, mid, bs, hb, hfurther, rfl⟩ := sepBy1_eq_read_iff.1 (ih hr' hp')
      have hlt : mid.length < (u ++ (r ++ rest)).length := by
        obtain ⟨v, hv, hb'⟩ := hfirst hr' hp'
        obtain ⟨-, rfl⟩ := Outcome.read.inj (hb.symm.trans hb')
        have hpos : 0 < u.length := List.length_pos_iff.2 hne
        have hle := (List.dropWhile_sublist (l := r ++ rest) p).length_le
        rw [hdropped] at hle
        simp only [List.length_append] at hle ⊢
        omega
      exact sepBy1_eq_read_iff.2
        ⟨a, _, b :: bs, hitem ht hp (hfollow hu hr), furtherItems_of_read hskip hb hlt hfurther,
          rfl⟩

end Reader
end SemanticVersioning
