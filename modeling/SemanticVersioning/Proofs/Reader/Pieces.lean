import SemanticVersioning.Proofs.Reader.Position

/-!
# Readers and the first number beyond the limit

A text is taken apart into pieces, of which some are numbers, given by their figures (`Piece`).
Which ones these are is up to the notation. If all numbers are within the limit, a reader reads the
text. If some are not, it must not overlook the first of them: it refuses the text there, with its
figures, whatever else it might have tried on the rest (`Reader.Discerns`). Both cases are carried
through the combinators together, since what stands before the first number beyond the limit has to
be read to get there.

* `Discerns.ofRead`: a piece without numbers, which is only read.
* `Discerns.bind` and so on: pieces one after the other.
* `Discerns.orElse`, `Discerns.optional`: a refusal leaves no choice.
* `Joined`, `Discerns.sepBy1`: items with separators between them, by induction on the list.
* `Piece.Whole`: the digits of a number do not go on to the left of it.
* `SpelledBy`: texts that can be taken apart into pieces that fit.
-/

namespace SemanticVersioning

open Reader Text

variable {α β : Type}

/-! ## Texts in pieces -/

/-- A piece of a text: a number, given by its figures, or whatever is none. -/
inductive Piece where
  | plain (text : List Char)
  | figures (digits : List Char)
deriving DecidableEq, Repr

namespace Piece

/-- The characters of a piece. -/
def text : Piece → List Char
  | plain t => t
  | figures ds => ds

/-- The piece is not a number beyond the limit. -/
def Fits : Piece → Prop
  | plain _ => True
  | figures ds => Nat.ofDigitChars 10 ds 0 ≤ maxSafeInteger

instance : DecidablePred Fits
  | plain _ => inferInstanceAs (Decidable True)
  | figures _ => inferInstanceAs (Decidable (_ ≤ _))

@[simp] theorem fits_plain (t : List Char) : (plain t).Fits := trivial

/-- The text that is taken apart. -/
def textOf (ps : List Piece) : List Char :=
  ps.flatMap text

@[simp] theorem textOf_nil : textOf [] = [] := rfl

@[simp] theorem textOf_plain_cons (t : List Char) (ps : List Piece) :
    textOf (plain t :: ps) = t ++ textOf ps := rfl

@[simp] theorem textOf_figures_cons (ds : List Char) (ps : List Piece) :
    textOf (figures ds :: ps) = ds ++ textOf ps := rfl

@[simp] theorem textOf_append (ps qs : List Piece) : textOf (ps ++ qs) = textOf ps ++ textOf qs :=
  List.flatMap_append

/-- The first number beyond the limit in some pieces, with the pieces before and after it. It is a
number with all the digits that stand there, also in front of the rest. -/
structure FirstLarge (ps : List Piece) (rest : List Char) (qs : List Piece) (ds : List Char)
    (rs : List Piece) : Prop where
  eq_append : ps = qs ++ figures ds :: rs
  fits : ∀ p ∈ qs, p.Fits
  large : ¬ (figures ds).Fits
  avoids : Avoids Char.isDigit (textOf rs ++ rest)

namespace FirstLarge

variable {ps qs rs us : List Piece} {ds rest : List Char}

theorem not_fits (h : FirstLarge ps rest qs ds rs) : ¬ ∀ p ∈ ps, p.Fits := by
  intro hps
  refine h.large (hps _ ?_)
  rw [h.eq_append]
  exact List.mem_append_right _ List.mem_cons_self

/-- Pieces after it change nothing. -/
theorem append (h : FirstLarge ps (textOf us ++ rest) qs ds rs) :
    FirstLarge (ps ++ us) rest qs ds (rs ++ us) where
  eq_append := by rw [h.eq_append, List.append_assoc, List.cons_append]
  fits := h.fits
  large := h.large
  avoids := by
    rw [textOf_append, List.append_assoc]
    exact h.avoids

/-- Nor do pieces before it that fit. -/
theorem append_left (hus : ∀ p ∈ us, p.Fits) (h : FirstLarge ps rest qs ds rs) :
    FirstLarge (us ++ ps) rest (us ++ qs) ds rs where
  eq_append := by rw [h.eq_append, List.append_assoc]
  fits := List.forall_mem_append.2 ⟨hus, h.fits⟩
  large := h.large
  avoids := h.avoids

end FirstLarge

/-- Only one number is the first beyond the limit. -/
theorem eq_of_first {qs qs' rs rs' : List Piece} {ds ds' : List Char}
    (h : qs ++ figures ds :: rs = qs' ++ figures ds' :: rs') (hqs : ∀ p ∈ qs, p.Fits)
    (hqs' : ∀ p ∈ qs', p.Fits) (hds : ¬ (figures ds).Fits) (hds' : ¬ (figures ds').Fits) :
    qs = qs' ∧ ds = ds' := by
  rcases List.append_eq_append_iff.1 h with ⟨us, rfl, hus⟩ | ⟨us, rfl, hus⟩
  · cases us with
    | nil =>
      cases hus
      exact ⟨(List.append_nil qs).symm, rfl⟩
    | cons u us =>
      obtain ⟨rfl, -⟩ := List.cons.inj hus
      exact absurd (hqs' _ (by simp)) hds
  · cases us with
    | nil =>
      cases hus
      exact ⟨List.append_nil qs', rfl⟩
    | cons u us =>
      obtain ⟨rfl, -⟩ := List.cons.inj hus
      exact absurd (hqs _ (by simp)) hds'

/-! ### Where numbers begin -/

/-- No number of the pieces follows a digit, if they stand after some text. -/
def Whole (before : List Char) (ps : List Piece) : Prop :=
  ∀ qs ds rs, ps = qs ++ figures ds :: rs → Avoids Char.isDigit (before ++ textOf qs).reverse

/-- No digits stand on both sides of the border between some text and the pieces after it. -/
def Parted (before : List Char) (ps : List Piece) : Prop :=
  Avoids Char.isDigit before.reverse ∨ Avoids Char.isDigit (textOf ps)

namespace Whole

variable {ps qs : List Piece} {before t ds : List Char}

theorem nil (before : List Char) : Whole before [] := by
  intro qs ds rs h
  simp at h

theorem figures (h : Avoids Char.isDigit before.reverse) (ds : List Char) :
    Whole before [.figures ds] := by
  intro qs ds' rs hsplit
  cases qs with
  | nil =>
    rw [textOf_nil, List.append_nil]
    exact h
  | cons q qs => simp at hsplit

theorem plain (before t : List Char) : Whole before [.plain t] := by
  intro qs ds rs hsplit
  cases qs with
  | nil => simp at hsplit
  | cons q qs => simp at hsplit

theorem append (hps : Whole before ps) (hqs : Whole (before ++ textOf ps) qs) :
    Whole before (ps ++ qs) := by
  intro us ds vs hsplit
  rcases List.append_eq_append_iff.1 hsplit with ⟨ws, rfl, hws⟩ | ⟨ws, rfl, hws⟩
  · rw [textOf_append, ← List.append_assoc]
    exact hqs ws ds vs hws
  · cases ws with
    | nil =>
      rw [List.append_nil] at hqs
      simpa using hqs [] ds vs hws.symm
    | cons w ws =>
      obtain ⟨rfl, -⟩ := List.cons.inj hws
      exact hps us ds ws rfl

theorem cons_plain (h : Whole (before ++ t) ps) : Whole before (.plain t :: ps) := by
  have happend : Whole before ([.plain t] ++ ps) :=
    (plain before t).append (by simpa using h)
  exact happend

theorem cons_figures (hbefore : Avoids Char.isDigit before.reverse)
    (h : Whole (before ++ ds) ps) : Whole before (.figures ds :: ps) := by
  have happend : Whole before ([.figures ds] ++ ps) :=
    (figures hbefore ds).append (by simpa using h)
  exact happend

end Whole
end Piece

open Piece

/-! ## Discerning a text -/

/-- What is to become of a text in pieces with some rest behind it: all of it is read if the pieces
fit, and otherwise it is refused where the first number beyond the limit begins. -/
inductive Outcome.Discerned (ps : List Piece) (rest : List Char) : Outcome α → Prop
  | read (a : α) : (∀ p ∈ ps, p.Fits) → Discerned ps rest (.read a rest)
  | refused {qs rs : List Piece} {ds : List Char} (production : Option Production) :
      FirstLarge ps rest qs ds rs →
        Discerned ps rest (.refused ⟨ds ++ (textOf rs ++ rest), production⟩
          (.numericOverflow (String.ofList ds)))

namespace Reader

/-- The reader discerns in a text in pieces, in front of some rest, whether the pieces fit. -/
def Discerns (p : Reader α) (ps : List Piece) (rest : List Char) : Prop :=
  (p (textOf ps ++ rest)).Discerned ps rest

namespace Discerns

variable {p q : Reader α} {ps qs : List Piece} {rest : List Char}

theorem not_misses (h : Discerns p ps rest) : ¬ Misses p (textOf ps ++ rest) := by
  rintro ⟨stop, hmiss⟩
  rw [Discerns, hmiss] at h
  cases h

/-- If the pieces fit, the text is read. -/
theorem exists_read (h : Discerns p ps rest) (hps : ∀ x ∈ ps, x.Fits) :
    ∃ a, p (textOf ps ++ rest) = .read a rest := by
  rw [Discerns] at h
  generalize p (textOf ps ++ rest) = outcome at h
  cases h with
  | read a _ => exact ⟨a, rfl⟩
  | refused production hfirst => exact absurd hps hfirst.not_fits

/-- If some piece does not fit, the text is refused at the first that does not. -/
theorem exists_refused (h : Discerns p ps rest) (hps : ¬ ∀ x ∈ ps, x.Fits) :
    ∃ qs ds rs production, FirstLarge ps rest qs ds rs ∧ p (textOf ps ++ rest) =
      .refused ⟨ds ++ (textOf rs ++ rest), production⟩ (.numericOverflow (String.ofList ds)) := by
  rw [Discerns] at h
  generalize p (textOf ps ++ rest) = outcome at h
  cases h with
  | read a hfits => exact absurd hfits hps
  | @refused qs rs ds production hfirst => exact ⟨qs, ds, rs, production, hfirst, rfl⟩

/-! ### Sequence -/

protected theorem pure (a : α) (rest : List Char) : Discerns (Pure.pure a) [] rest :=
  .read a (by simp)

/-- A piece without numbers. -/
theorem ofRead {t : List Char} {a : α} (h : p (t ++ rest) = .read a rest) :
    Discerns p [plain t] rest := by
  rw [Discerns, textOf_plain_cons, textOf_nil, List.append_nil, h]
  exact .read a (by simp)

/-- A number, which its reader checks. -/
protected theorem checked {check : α → Except (ErrorKind × Option Production) β} {ds : List Char}
    {a : α} (h : p (ds ++ rest) = .read a rest) (hrest : Avoids Char.isDigit rest)
    (hfits : (figures ds).Fits → ∃ b, check a = .ok b)
    (hlarge : ¬ (figures ds).Fits →
      check a = .error (.numericOverflow (String.ofList ds), none)) :
    Discerns (p.checked check) [figures ds] rest := by
  rw [Discerns, textOf_figures_cons, textOf_nil, List.append_nil, checked_apply, h,
    Outcome.andThen_read]
  by_cases hds : (figures ds).Fits
  · obtain ⟨b, hb⟩ := hfits hds
    rw [hb]
    exact .read b (by simpa using hds)
  · have hfirst : FirstLarge [figures ds] rest [] ds [] := ⟨rfl, by simp, hds, hrest⟩
    rw [hlarge hds]
    exact .refused none hfirst

/-- Pieces one after the other. -/
protected theorem bind {next : α → Reader β} (h : Discerns p ps (textOf qs ++ rest))
    (hnext : ∀ a, Discerns (next a) qs rest) : Discerns (p >>= next) (ps ++ qs) rest := by
  rw [Discerns] at h
  rw [Discerns, textOf_append, List.append_assoc, bind_apply]
  generalize p (textOf ps ++ (textOf qs ++ rest)) = outcome at h
  cases h with
  | refused production hfirst =>
    rw [Outcome.andThen_refused, ← List.append_assoc (textOf _), ← textOf_append]
    exact .refused production hfirst.append
  | read a hfits =>
    have h := hnext a
    rw [Discerns] at h
    rw [Outcome.andThen_read]
    generalize next a (textOf qs ++ rest) = outcome at h
    cases h with
    | read b hfits' => exact .read b (List.forall_mem_append.2 ⟨hfits, hfits'⟩)
    | refused production hfirst => exact .refused production (hfirst.append_left hfits)

/-- Where two readers do the same, both discern it. -/
protected theorem congr (h : p (textOf ps ++ rest) = q (textOf ps ++ rest))
    (hq : Discerns q ps rest) : Discerns p ps rest := by
  rw [Discerns, h]
  exact hq

/-- A piece without numbers in front of what another reader is left with. -/
theorem shift {t : List Char} (h : p (t ++ (textOf qs ++ rest)) = q (textOf qs ++ rest))
    (hq : Discerns q qs rest) : Discerns p (plain t :: qs) rest := by
  rw [Discerns] at hq
  rw [Discerns, textOf_plain_cons, List.append_assoc, h]
  generalize q (textOf qs ++ rest) = outcome at hq
  cases hq with
  | read a hfits => exact .read a (List.forall_mem_cons.2 ⟨fits_plain t, hfits⟩)
  | refused production hfirst =>
    have hplain : ∀ x ∈ [plain t], x.Fits := by simp
    exact .refused production (hfirst.append_left hplain)

/-- A piece without numbers, and what comes after it. -/
theorem bind_plain {next : α → Reader β} {t : List Char} {a : α}
    (h : p (t ++ (textOf qs ++ rest)) = .read a (textOf qs ++ rest))
    (hnext : Discerns (next a) qs rest) : Discerns (p >>= next) (plain t :: qs) rest :=
  .shift (by rw [bind_apply, h, Outcome.andThen_read]) hnext

/-- What reads nothing leaves it to what comes after it. -/
theorem bind_skip {next : α → Reader β} {a : α}
    (h : p (textOf ps ++ rest) = .read a (textOf ps ++ rest)) (hnext : Discerns (next a) ps rest) :
    Discerns (p >>= next) ps rest :=
  .congr (by rw [bind_apply, h, Outcome.andThen_read]) hnext

/-- A number beyond the limit leaves nothing to what comes after it. -/
theorem bind_of_large {next : α → Reader β} (h : Discerns p ps rest)
    (hps : ¬ ∀ x ∈ ps, x.Fits) : Discerns (p >>= next) ps rest := by
  obtain ⟨qs, ds, rs, production, hfirst, hp⟩ := h.exists_refused hps
  rw [Discerns, bind_apply, hp, Outcome.andThen_refused]
  exact .refused production hfirst

/-- Pieces, and nothing for what comes after them. -/
theorem bind_nil {next : α → Reader β} (h : Discerns p ps rest)
    (hnext : ∀ a, Discerns (next a) [] rest) : Discerns (p >>= next) ps rest := by
  have hbind : Discerns (p >>= next) (ps ++ []) rest := .bind h hnext
  rwa [List.append_nil] at hbind

/-- The value that is returned in the end does not matter. -/
theorem bind_pure {f : α → β} (h : Discerns p ps rest) :
    Discerns (p >>= fun a => Pure.pure (f a)) ps rest :=
  h.bind_nil fun a => .pure (f a) rest

/-- The same outcome up to the value and the production. -/
private theorem of_apply {q : Reader β} (h : Discerns p ps rest)
    (hread : ∀ a, p (textOf ps ++ rest) = .read a rest → ∃ b, q (textOf ps ++ rest) = .read b rest)
    (hrefused : ∀ leftover production kind,
      p (textOf ps ++ rest) = .refused ⟨leftover, production⟩ kind →
        ∃ production, q (textOf ps ++ rest) = .refused ⟨leftover, production⟩ kind) :
    Discerns q ps rest := by
  rw [Discerns] at h ⊢
  cases hout : p (textOf ps ++ rest) with
  | read a left =>
    rw [hout] at h
    cases h with
    | read a hfits =>
      obtain ⟨b, hb⟩ := hread a hout
      rw [hb]
      exact .read b hfits
  | missed stop =>
    rw [hout] at h
    cases h
  | refused stop kind =>
    rw [hout] at h
    cases h with
    | refused production hfirst =>
      obtain ⟨production', hq⟩ := hrefused _ production _ hout
      rw [hq]
      exact .refused production' hfirst

protected theorem map (f : α → β) (h : Discerns p ps rest) : Discerns (f <$> p) ps rest :=
  h.of_apply (fun a ha => ⟨f a, by rw [map_apply, ha, Outcome.andThen_read]⟩)
    fun _ production _ hp => ⟨production, by rw [map_apply, hp, Outcome.andThen_refused]⟩

protected theorem within (production : Production) (h : Discerns p ps rest) :
    Discerns (Reader.within production p) ps rest :=
  h.of_apply (fun a ha => ⟨a, within_eq_read_iff.2 ha⟩)
    fun _ _ _ hp => ⟨_, by simp only [Reader.within, hp]; rfl⟩

protected theorem spelled (h : Discerns p ps rest) : Discerns (Reader.spelled p) ps rest :=
  h.of_apply (fun _ ha => ⟨_, spelled_eq_read_iff.2 ⟨ha, rfl⟩⟩)
    fun _ production _ hp =>
      ⟨production, by simp only [Reader.spelled, hp, Outcome.andThen_refused]⟩

/-! ### Choice -/

protected theorem orElse (h : Discerns p ps rest) : Discerns (p.orElse q) ps rest :=
  h.of_apply (fun a ha => ⟨a, orElse_apply_of_read ha⟩)
    fun _ production _ hp => ⟨production, by simp only [Reader.orElse, hp]⟩

theorem orElse_of_misses (hp : Misses p (textOf ps ++ rest)) (h : Discerns q ps rest) :
    Discerns (p.orElse q) ps rest :=
  .congr hp.orElse_apply h

protected theorem optional (h : Discerns p ps rest) : Discerns (Reader.optional p) ps rest :=
  h.of_apply (fun a ha => ⟨some a, optional_apply_of_read ha⟩)
    fun _ production _ hp => ⟨production, by simp only [Reader.optional, hp]⟩

theorem optional_of_misses (h : Misses p rest) : Discerns (Reader.optional p) [] rest := by
  rw [Discerns, textOf_nil, List.nil_append, h.optional_apply]
  exact .read none (by simp)

end Discerns
end Reader

/-! ## Lists -/

/-- Items with a separator between neighbours. Which separators may follow an item can depend on the
item. -/
inductive Joined (S : List Piece → List Char → Prop) (M : List Piece → Prop) : List Piece → Prop
  | single {ps : List Piece} : M ps → Joined S M ps
  | cons {ps qs : List Piece} {u : List Char} :
      M ps → S ps u → Joined S M qs → Joined S M (ps ++ plain u :: qs)

/-- No number of a list follows a digit, if none of an item does where the list may stand and after
each separator. -/
theorem Joined.whole {S : List Piece → List Char → Prop} {M : List Piece → Prop}
    {P : List Char → List Piece → Prop}
    (hM : ∀ {before ps}, M ps → P before ps → Whole before ps)
    (hP : ∀ {before ps qs}, P before (ps ++ qs) → P before ps)
    (hS : ∀ {before ps u}, S ps u → ∀ qs, P (before ++ u) qs)
    {before : List Char} {ps : List Piece} (h : Joined S M ps) (hbefore : P before ps) :
    Whole before ps := by
  induction h generalizing before with
  | single hps => exact hM hps hbefore
  | cons hps hu _ ih => exact (hM hps (hP hbefore)).append (.cons_plain (ih (hS hu _)))

namespace Reader

variable {separator : Reader Unit} {item : Reader α}

/-- The further items after a separator are a list of their own. -/
theorem furtherItems_eq_sepBy1 {s mid : List Char} (hsep : separator s = .read () mid)
    (hlt : ∀ a after, item mid = .read a after → after.length < s.length)
    (hitem : ¬ Misses item mid) : furtherItems separator item s = sepBy1 separator item mid := by
  have hround : (separator >>= fun _ => item) s = item mid := by
    rw [bind_apply, hsep, Outcome.andThen_read]
  rw [furtherItems, hround]
  simp only [sepBy1]
  cases h : item mid with
  | missed stop => exact absurd ⟨stop, h⟩ hitem
  | refused stop kind => rfl
  | read a after =>
    dsimp only
    rw [if_pos (hlt a after h), Outcome.andThen_read]

/-- **A list is discerned if its items are.** Each item is discerned in front of what may follow it,
the separator after it and the rest of the list. -/
theorem Discerns.sepBy1 {S : List Piece → List Char → Prop} {M : List Piece → Prop}
    {Follow : List Piece → List Char → Prop} {F : Fault} {rest : List Char}
    (hstays : StaysIn F item) (hitem : ∀ {ps s}, M ps → Follow ps s → Discerns item ps s)
    (hsep : ∀ {ps u qs}, M ps → S ps u → Joined S M qs → u ≠ [] ∧
      Follow ps (u ++ (textOf qs ++ rest)) ∧
        separator (u ++ (textOf qs ++ rest)) = .read () (textOf qs ++ rest))
    (hrest : ∀ {ps}, M ps → Follow ps rest) (hend : Misses (separator >>= fun _ => item) rest)
    {ps : List Piece} (h : Joined S M ps) : Discerns (Reader.sepBy1 separator item) ps rest := by
  induction h with
  | @single ps hps =>
    have hfurther : Discerns ⟨furtherItems separator item⟩ [] rest := by
      show Outcome.Discerned [] rest (furtherItems separator item rest)
      rw [furtherItems_of_misses hend]
      exact .read [] (by simp)
    have hlist : Discerns (Reader.sepBy1 separator item) (ps ++ []) rest := by
      rw [StaysIn.sepBy1_eq_bind]
      exact .bind (hitem hps (hrest hps)) fun _ => hfurther.map _
    rwa [List.append_nil] at hlist
  | @cons ps qs u hps hu hqs ih =>
    obtain ⟨hne, hfollow, hread⟩ := hsep hps hu hqs
    rw [← List.append_assoc, ← textOf_plain_cons] at hfollow
    have hlater : ¬ Misses item (textOf qs ++ rest) := fun hmiss => ih.not_misses hmiss.sepBy1
    have hround : furtherItems separator item (u ++ (textOf qs ++ rest)) =
        Reader.sepBy1 separator item (textOf qs ++ rest) := by
      refine furtherItems_eq_sepBy1 hread (fun a after ha => ?_) hlater
      have hpos : 0 < u.length := List.length_pos_iff.2 hne
      have hle := hstays.length_le ha
      rw [List.length_append]
      omega
    have hfurther : Discerns ⟨furtherItems separator item⟩ (plain u :: qs) rest := .shift hround ih
    rw [StaysIn.sepBy1_eq_bind]
    exact .bind (hitem hps hfollow) fun _ => hfurther.map _

end Reader

/-! ## Texts that can be taken apart -/

/-- The text can be taken apart into pieces that fit. -/
def SpelledBy (M : List Piece → Prop) (t : List Char) : Prop :=
  ∃ ps, M ps ∧ textOf ps = t ∧ ∀ p ∈ ps, p.Fits

namespace SpelledBy

variable {M N K : List Piece → Prop} {s t : List Char}

theorem mono (h : SpelledBy M t) (hK : ∀ {ps}, M ps → K ps) : SpelledBy K t := by
  obtain ⟨ps, hps, htext, hfits⟩ := h
  exact ⟨ps, hK hps, htext, hfits⟩

/-- One text after the other. -/
theorem append (hs : SpelledBy M s) (ht : SpelledBy N t)
    (hK : ∀ {ps qs}, M ps → N qs → K (ps ++ qs)) : SpelledBy K (s ++ t) := by
  obtain ⟨ps, hps, rfl, hfits⟩ := hs
  obtain ⟨qs, hqs, rfl, hfits'⟩ := ht
  exact ⟨ps ++ qs, hK hps hqs, textOf_append ps qs, List.forall_mem_append.2 ⟨hfits, hfits'⟩⟩

/-- A text without numbers in front. -/
theorem cons {u : List Char} (h : SpelledBy (fun ps => K (plain u :: ps)) t) :
    SpelledBy K (u ++ t) := by
  obtain ⟨ps, hps, rfl, hfits⟩ := h
  exact ⟨plain u :: ps, hps, rfl, List.forall_mem_cons.2 ⟨fits_plain u, hfits⟩⟩

end SpelledBy

/-- If the items of a list can be taken apart without the characters of a class in front of them,
so can the list. What is dropped in front of an item belongs to the separator before it. -/
theorem Separated.spelledBy_dropWhile {p : Char → Bool} {S : List Char → Prop}
    {G : List Char → α → Prop} {S' : List Piece → List Char → Prop} {M : List Piece → Prop}
    (hG : ∀ {t a}, G t a → SpelledBy M (t.dropWhile p))
    (hS : ∀ {t ps u blanks}, M ps → textOf ps = t.dropWhile p → S u → (∀ c ∈ blanks, p c = true) →
      ∃ u', S' ps u' ∧ ∀ s, (t ++ (u ++ (blanks ++ s))).dropWhile p = textOf ps ++ (u' ++ s))
    {t : List Char} {as : List α} (h : Separated S G t as) :
    SpelledBy (Joined S' M) (t.dropWhile p) := by
  induction h with
  | single ht =>
    obtain ⟨ps, hps, htext, hfits⟩ := hG ht
    exact ⟨ps, .single hps, htext, hfits⟩
  | @cons t u r a as ht hu _ ih =>
    obtain ⟨ps, hps, htext, hfits⟩ := hG ht
    obtain ⟨qs, hqs, htext', hfits'⟩ := ih
    obtain ⟨u', hu', hdrop⟩ := hS hps htext hu (List.all_eq_true.1 (List.all_takeWhile (l := r)))
    refine ⟨ps ++ .plain u' :: qs, .cons hps hu' hqs, ?_, ?_⟩
    · have hdrop := hdrop (r.dropWhile p)
      rw [List.takeWhile_append_dropWhile] at hdrop
      rw [hdrop, textOf_append, textOf_plain_cons, htext']
    · exact List.forall_mem_append.2 ⟨hfits, List.forall_mem_cons.2 ⟨fits_plain u', hfits'⟩⟩

/-- If the items of a list can be taken apart, so can the list. -/
theorem Separated.spelledBy {S : List Char → Prop} {G : List Char → α → Prop}
    {M : List Piece → Prop} (hG : ∀ {t a}, G t a → SpelledBy M t) {t : List Char} {as : List α}
    (h : Separated S G t as) : SpelledBy (Joined (fun _ => S) M) t := by
  have hdrop : ∀ s : List Char, s.dropWhile (fun _ => false) = s :=
    fun _ => Avoids.dropWhile_eq fun _ _ => rfl
  rw [← hdrop t]
  refine h.spelledBy_dropWhile (fun ht => by simpa only [hdrop] using hG ht) ?_
  intro t ps u blanks _ htext hu hblanks
  obtain rfl : blanks = [] :=
    List.eq_nil_iff_forall_not_mem.2 fun c hc => by simpa using hblanks c hc
  exact ⟨u, hu, fun s => by rw [hdrop, htext, hdrop, List.nil_append]⟩

end SemanticVersioning
