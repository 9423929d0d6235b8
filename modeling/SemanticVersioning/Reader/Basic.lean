import SemanticVersioning.Error

/-!
# Readers

A reader takes a text from its front. It has three outcomes, and the difference between the last
two is what the combinators turn on.

* It *read* a value; the rest of the text is left to the next reader.
* It *missed*: what stands here is not what it reads. Another alternative may still read it, and an
  optional part or a further list item is then simply absent.
* It *refused*: what stands here is what it reads, but it is wrong. No alternative is tried and
  nothing swallows the refusal; it ends the reading of the whole text.

Both failures say where they stood, by the text that was left there, and in which production. The
innermost production wins: `within` names one only where none has been named. Of two alternatives
that both miss the second is reported.

A text has been read as a whole only if nothing is left of it. `Reader.run` says so, and gives a
miss the cause that its caller has in store for texts that fit no notation.
-/

namespace SemanticVersioning

/-! ## Outcomes -/

/-- Where a reader failed: the text that was left, and the production it was in. -/
structure Stop where
  leftover : List Char
  production : Option Production := none
deriving DecidableEq, Repr

/-- The same place, in the given production if it was in none. -/
def Stop.within (production : Production) (stop : Stop) : Stop :=
  { stop with production := some (stop.production.getD production) }

/-- What a reader makes of a text. -/
inductive Outcome (α : Type) where
  | read (value : α) (rest : List Char)
  | missed (stop : Stop)
  | refused (stop : Stop) (kind : ErrorKind)
deriving DecidableEq, Repr

namespace Outcome

variable {α β : Type}

/-- What follows an outcome: the next step if there is a value, the same failure otherwise. -/
def andThen (outcome : Outcome α) (next : α → List Char → Outcome β) : Outcome β :=
  match outcome with
  | read a rest => next a rest
  | missed stop => missed stop
  | refused stop kind => refused stop kind

@[simp] theorem andThen_read (a : α) (rest : List Char) (next : α → List Char → Outcome β) :
    (read a rest).andThen next = next a rest := rfl

@[simp] theorem andThen_missed (stop : Stop) (next : α → List Char → Outcome β) :
    (missed stop).andThen next = missed stop := rfl

@[simp] theorem andThen_refused (stop : Stop) (kind : ErrorKind)
    (next : α → List Char → Outcome β) :
    (refused stop kind).andThen next = refused stop kind := rfl

theorem andThen_eq_read_iff {outcome : Outcome α} {next : α → List Char → Outcome β} {b : β}
    {rest : List Char} : outcome.andThen next = read b rest ↔
      ∃ a mid, outcome = read a mid ∧ next a mid = read b rest := by
  cases outcome <;> simp [and_assoc]

end Outcome

/-- A reader of values of a type. -/
structure Reader (α : Type) where
  /-- What the reader makes of a text. -/
  apply : List Char → Outcome α

namespace Reader

variable {α β : Type}

instance : CoeFun (Reader α) fun _ => List Char → Outcome α := ⟨apply⟩

/-! ## Sequence -/

instance : Monad Reader where
  pure a := ⟨fun s => .read a s⟩
  bind p next := ⟨fun s => (p s).andThen fun a rest => next a rest⟩

@[simp] theorem pure_apply (a : α) (s : List Char) : (pure a : Reader α) s = .read a s := rfl

@[simp] theorem bind_apply (p : Reader α) (next : α → Reader β) (s : List Char) :
    (p >>= next) s = (p s).andThen fun a rest => next a rest := rfl

@[simp] theorem map_apply (f : α → β) (p : Reader α) (s : List Char) :
    (f <$> p) s = (p s).andThen fun a rest => .read (f a) rest := rfl

theorem bind_eq_read_iff {p : Reader α} {next : α → Reader β} {s : List Char} {b : β}
    {rest : List Char} :
    (p >>= next) s = .read b rest ↔ ∃ a mid, p s = .read a mid ∧ next a mid = .read b rest := by
  rw [bind_apply, Outcome.andThen_eq_read_iff]

/-! ## Characters -/

/-- The characters at the front that are in a class, as many as there are. -/
def charsWhile (p : Char → Bool) : Reader (List Char) where
  apply s := .read (s.takeWhile p) (s.dropWhile p)

@[simp] theorem charsWhile_apply (p : Char → Bool) (s : List Char) :
    charsWhile p s = .read (s.takeWhile p) (s.dropWhile p) := rfl

/-- The characters at the front that are in a class, of which there must be one. -/
def charsWhile1 (p : Char → Bool) : Reader (List Char) where
  apply s :=
    if s.takeWhile p = [] then .missed ⟨s, none⟩ else .read (s.takeWhile p) (s.dropWhile p)

theorem charsWhile1_apply (p : Char → Bool) (s : List Char) : charsWhile1 p s =
    if s.takeWhile p = [] then .missed ⟨s, none⟩ else .read (s.takeWhile p) (s.dropWhile p) := rfl

/-- A fixed text. -/
def literal (t : List Char) : Reader Unit where
  apply s := if t <+: s then .read () (s.drop t.length) else .missed ⟨s, none⟩

theorem literal_apply (t s : List Char) :
    literal t s = if t <+: s then .read () (s.drop t.length) else .missed ⟨s, none⟩ := rfl

@[simp] theorem literal_append (t s : List Char) : literal t (t ++ s) = .read () s := by
  simp [literal_apply]

/-- The end of the text. -/
def endOfText : Reader Unit where
  apply s := if s = [] then .read () [] else .missed ⟨s, none⟩

theorem endOfText_apply (s : List Char) :
    endOfText s = if s = [] then .read () [] else .missed ⟨s, none⟩ := rfl

/-- The reader with a check of what it read. A failed check refuses the text from where the reader
began, possibly in a production of its own. -/
def checked (p : Reader α) (check : α → Except (ErrorKind × Option Production) β) : Reader β where
  apply s := (p s).andThen fun a rest =>
    match check a with
    | .ok b => .read b rest
    | .error (kind, production) => .refused ⟨s, production⟩ kind

theorem checked_apply (p : Reader α) (check : α → Except (ErrorKind × Option Production) β)
    (s : List Char) : p.checked check s = (p s).andThen fun a rest =>
      match check a with
      | .ok b => .read b rest
      | .error (kind, production) => .refused ⟨s, production⟩ kind := rfl

theorem checked_eq_read_iff {p : Reader α} {check : α → Except (ErrorKind × Option Production) β}
    {s : List Char} {b : β} {rest : List Char} :
    p.checked check s = .read b rest ↔ ∃ a, p s = .read a rest ∧ check a = .ok b := by
  rw [checked_apply, Outcome.andThen_eq_read_iff]
  constructor
  · rintro ⟨a, mid, hp, h⟩
    cases hc : check a with
    | ok c =>
      rw [hc] at h
      cases h
      exact ⟨a, hp, hc⟩
    | error e =>
      rw [hc] at h
      exact nomatch h
  · rintro ⟨a, hp, hc⟩
    exact ⟨a, rest, hp, by rw [hc]⟩

/-! ## Choice -/

/-- The first reader, or the second where the first misses. -/
def orElse (p q : Reader α) : Reader α where
  apply s :=
    match p s with
    | .read a rest => .read a rest
    | .missed _ => q s
    | .refused stop kind => .refused stop kind

theorem orElse_eq_read_iff {p q : Reader α} {s : List Char} {a : α} {rest : List Char} :
    p.orElse q s = .read a rest ↔
      p s = .read a rest ∨ (∃ stop, p s = .missed stop) ∧ q s = .read a rest := by
  rw [orElse]
  cases h : p s <;> simp [h]

/-- A part that may be absent. -/
def optional (p : Reader α) : Reader (Option α) where
  apply s :=
    match p s with
    | .read a rest => .read (some a) rest
    | .missed _ => .read none s
    | .refused stop kind => .refused stop kind

theorem optional_eq_read_some_iff {p : Reader α} {s : List Char} {a : α} {rest : List Char} :
    optional p s = .read (some a) rest ↔ p s = .read a rest := by
  rw [optional]
  cases h : p s <;> simp [h]

theorem optional_eq_read_none_iff {p : Reader α} {s rest : List Char} :
    optional p s = .read none rest ↔ (∃ stop, p s = .missed stop) ∧ rest = s := by
  rw [optional]
  cases h : p s <;> simp [h, eq_comm]

/-- A condition on what comes next, which is left standing. -/
def lookahead (p : Reader α) : Reader α where
  apply s := (p s).andThen fun a _ => .read a s

theorem lookahead_eq_read_iff {p : Reader α} {s : List Char} {a : α} {rest : List Char} :
    lookahead p s = .read a rest ↔ (∃ mid, p s = .read a mid) ∧ rest = s := by
  rw [lookahead]
  cases h : p s <;> simp [h, eq_comm]

/-- A reader in a production, which its failures name unless they name one already. -/
def within (production : Production) (p : Reader α) : Reader α where
  apply s :=
    match p s with
    | .read a rest => .read a rest
    | .missed stop => .missed (stop.within production)
    | .refused stop kind => .refused (stop.within production) kind

@[simp] theorem within_eq_read_iff {production : Production} {p : Reader α} {s : List Char} {a : α}
    {rest : List Char} : within production p s = .read a rest ↔ p s = .read a rest := by
  rw [within]
  cases h : p s <;> simp [h]

/-- A value together with the text it was read from. -/
def spelled (p : Reader α) : Reader (List Char × α) where
  apply s := (p s).andThen fun a rest => .read (s.take (s.length - rest.length), a) rest

theorem spelled_eq_read_iff {p : Reader α} {s t : List Char} {a : α} {rest : List Char} :
    spelled p s = .read (t, a) rest ↔
      p s = .read a rest ∧ t = s.take (s.length - rest.length) := by
  rw [spelled, Outcome.andThen_eq_read_iff]
  constructor
  · rintro ⟨b, mid, hp, h⟩
    cases h
    exact ⟨hp, rfl⟩
  · rintro ⟨hp, rfl⟩
    exact ⟨a, rest, hp, rfl⟩

/-! ## Lists -/

/-- The further items of a list, each after a separator. The list ends before the first separator
that is not followed by an item, or where a round has taken nothing from the text. -/
def furtherItems (separator : Reader Unit) (item : Reader α) (s : List Char) : Outcome (List α) :=
  match (separator >>= fun _ => item) s with
  | .read a rest =>
      if rest.length < s.length then
        (furtherItems separator item rest).andThen fun as rest => .read (a :: as) rest
      else
        .read [] s
  | .missed _ => .read [] s
  | .refused stop kind => .refused stop kind
termination_by s.length

/-- One or more items with separators between them. -/
def sepBy1 (separator : Reader Unit) (item : Reader α) : Reader (List α) where
  apply s := (item s).andThen fun a rest =>
    (furtherItems separator item rest).andThen fun as rest => .read (a :: as) rest

/-- Any number of items with separators between them. -/
def sepBy (separator : Reader Unit) (item : Reader α) : Reader (List α) :=
  (·.getD []) <$> optional (sepBy1 separator item)

/-! ## Whole texts -/

/-- The value of a whole text. Text that is left over is a miss that stands in no production; each
miss is given the cause `unfit`. -/
def run (p : Reader α) (unfit : ErrorKind) (s : List Char) : Except (Stop × ErrorKind) α :=
  match p s with
  | .read a [] => .ok a
  | .read _ (c :: rest) => .error (⟨c :: rest, none⟩, unfit)
  | .missed stop => .error (stop, unfit)
  | .refused stop kind => .error (stop, kind)

theorem run_eq_ok_iff {p : Reader α} {unfit : ErrorKind} {s : List Char} {a : α} :
    p.run unfit s = .ok a ↔ p s = .read a [] := by
  rw [run]
  split <;> simp_all

end Reader

/-- The error of a text whose body was read up to a stop. The body follows the part `before` that
was skipped, and the error stands where the leftover text begins. -/
def ParseError.ofStop (input : String) (before body : List Char) (stop : Stop)
    (kind : ErrorKind) : ParseError where
  input := input
  offset := Text.utf8Length before + (Text.utf8Length body - Text.utf8Length stop.leftover)
  spanLength := 0
  production := stop.production
  kind := kind

end SemanticVersioning
