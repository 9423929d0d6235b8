import SemanticVersioning.Proofs.Reader.Exactness

/-!
# Where readers stop

Whatever a reader makes of a text, it speaks of a place in that text: what it leaves, and what was
left where it failed, is an end of the text (`Reader.StaysIn`). A refusal says more, namely what is
wrong there. A `Fault` relates the cause to the two parts of the text, before the place and after
it.

* `StaysIn.charsWhile` and so on: the readers of characters, which refuse nothing.
* `StaysIn.checked`: the only place at which a refusal arises.
* `StaysIn.bind`, `StaysIn.orElse` and so on: the combinators hand a refusal on. In a sequence the
  text before the place grows, and the fault must allow for that.
* `StaysIn.sepBy1`: lists. An item is read after its separator, so a fault may depend on what an
  item stands after, if what the separators leave before an item is as good as nothing.
-/

namespace SemanticVersioning

variable {α β : Type}

/-- What is wrong at a place of a text: a relation between the text before the place, the text after
it, and the cause. -/
abbrev Fault := List Char → List Char → ErrorKind → Prop

namespace Fault

/-- A fault that is seen in the text after it alone. -/
def ofAfter (K : List Char → ErrorKind → Prop) : Fault :=
  fun _ after kind => K after kind

/-- A fault that stays one when there is more text before it. -/
def Shifts (F : Fault) : Prop :=
  ∀ t before after kind, F before after kind → F (t ++ before) after kind

theorem shifts_ofAfter (K : List Char → ErrorKind → Prop) : Shifts (ofAfter K) :=
  fun _ _ _ _ h => h

end Fault

open Fault

/-- The outcome stands in the text, and a refusal is for a fault. -/
def Outcome.InText (F : Fault) (s : List Char) : Outcome α → Prop
  | read _ rest => rest <:+ s
  | missed stop => stop.leftover <:+ s
  | refused stop kind => ∃ before, before ++ stop.leftover = s ∧ F before stop.leftover kind

namespace Reader

/-- The reader speaks of places in its text, and refuses it for a fault only. -/
def StaysIn (F : Fault) (p : Reader α) : Prop :=
  ∀ s, (p s).InText F s

namespace StaysIn

variable {F G : Fault} {p q : Reader α} {s : List Char}

theorem mono (h : StaysIn F p)
    (hFG : ∀ before after kind, F before after kind → G before after kind) : StaysIn G p := by
  intro s
  have hs := h s
  cases hp : p s with
  | read a rest => rwa [hp] at hs
  | missed stop => rwa [hp] at hs
  | refused stop kind =>
    rw [hp] at hs
    obtain ⟨before, hbefore, hfault⟩ := hs
    exact ⟨before, hbefore, hFG _ _ _ hfault⟩

/-- What is left is not longer than the text. -/
theorem length_le (h : StaysIn F p) {a : α} {rest : List Char} (hread : p s = .read a rest) :
    rest.length ≤ s.length := by
  have hs := h s
  rw [hread] at hs
  exact List.IsSuffix.length_le hs

/-! ### Characters -/

protected theorem pure (a : α) : StaysIn F (Pure.pure a) :=
  fun s => List.suffix_refl s

protected theorem charsWhile (P : Char → Bool) : StaysIn F (charsWhile P) :=
  fun _ => List.dropWhile_suffix P

protected theorem charsWhile1 (P : Char → Bool) : StaysIn F (charsWhile1 P) := by
  intro s
  rw [charsWhile1_apply]
  split
  · exact List.suffix_refl s
  · exact List.dropWhile_suffix P

protected theorem literal (t : List Char) : StaysIn F (literal t) := by
  intro s
  rw [literal_apply]
  split
  · exact List.drop_suffix _ _
  · exact List.suffix_refl s

protected theorem endOfText : StaysIn F endOfText := by
  intro s
  rw [endOfText_apply]
  split
  · exact List.nil_suffix
  · exact List.suffix_refl s

/-! ### Sequence -/

/-- A check refuses the text from where the reader began. -/
protected theorem checked {check : α → Except (ErrorKind × Option Production) β}
    (h : StaysIn F p) (hcheck : ∀ {s a rest kind production}, p s = .read a rest →
      check a = .error (kind, production) → F [] s kind) : StaysIn F (p.checked check) := by
  intro s
  have hs := h s
  rw [checked_apply]
  cases hp : p s with
  | read a rest =>
    rw [hp] at hs
    rw [Outcome.andThen_read]
    cases ha : check a with
    | ok b => exact hs
    | error e => exact ⟨[], rfl, hcheck hp ha⟩
  | missed stop => rwa [hp] at hs
  | refused stop kind => rwa [hp] at hs

/-- What follows is read in the rest. A fault in the rest must be one in the text. -/
theorem bind_of_shift {next : α → Reader β} (h : StaysIn F p) (hnext : ∀ a, StaysIn G (next a))
    (hshift : ∀ {t a rest}, p (t ++ rest) = .read a rest → ∀ before after kind,
      G before after kind → F (t ++ before) after kind) : StaysIn F (p >>= next) := by
  intro s
  have hs := h s
  rw [bind_apply]
  cases hp : p s with
  | missed stop => rwa [hp] at hs
  | refused stop kind => rwa [hp] at hs
  | read a rest =>
    rw [hp] at hs
    obtain ⟨t, rfl⟩ := hs
    rw [Outcome.andThen_read]
    have hrest := hnext a rest
    cases hn : next a rest with
    | read b left =>
      rw [hn] at hrest
      exact List.IsSuffix.trans hrest (List.suffix_append t rest)
    | missed stop =>
      rw [hn] at hrest
      exact List.IsSuffix.trans hrest (List.suffix_append t rest)
    | refused stop kind =>
      rw [hn] at hrest
      obtain ⟨before, rfl, hfault⟩ := hrest
      exact ⟨t ++ before, List.append_assoc _ _ _, hshift hp _ _ _ hfault⟩

protected theorem bind {next : α → Reader β} (hF : Shifts F) (h : StaysIn F p)
    (hnext : ∀ a, StaysIn F (next a)) : StaysIn F (p >>= next) :=
  bind_of_shift h hnext fun _ _ _ _ hfault => hF _ _ _ _ hfault

protected theorem map (f : α → β) (h : StaysIn F p) : StaysIn F (f <$> p) := by
  intro s
  have hs := h s
  rw [map_apply]
  cases hp : p s <;> rwa [hp] at hs

/-! ### Choice -/

protected theorem orElse (hp : StaysIn F p) (hq : StaysIn F q) : StaysIn F (p.orElse q) := by
  intro s
  have hs := hp s
  simp only [Reader.orElse]
  cases h : p s with
  | read a rest => rwa [h] at hs
  | missed stop => exact hq s
  | refused stop kind => rwa [h] at hs

protected theorem optional (h : StaysIn F p) : StaysIn F (Reader.optional p) := by
  intro s
  have hs := h s
  simp only [Reader.optional]
  cases hp : p s with
  | read a rest => rwa [hp] at hs
  | missed stop => exact List.suffix_refl s
  | refused stop kind => rwa [hp] at hs

protected theorem lookahead (h : StaysIn F p) : StaysIn F (Reader.lookahead p) := by
  intro s
  have hs := h s
  simp only [Reader.lookahead]
  cases hp : p s with
  | read a rest => exact List.suffix_refl s
  | missed stop => rwa [hp] at hs
  | refused stop kind => rwa [hp] at hs

protected theorem within (production : Production) (h : StaysIn F p) :
    StaysIn F (Reader.within production p) := by
  intro s
  have hs := h s
  simp only [Reader.within]
  cases hp : p s <;> rwa [hp] at hs

protected theorem spelled (h : StaysIn F p) : StaysIn F (Reader.spelled p) := by
  intro s
  have hs := h s
  simp only [Reader.spelled]
  cases hp : p s <;> rwa [hp] at hs

/-! ### Lists -/

variable {separator : Reader Unit} {item : Reader α}

/-- The further items of a list. The induction is on the length of the text, which each round
shortens; the faults of later rounds are shifted past the earlier ones. -/
theorem furtherItems (hG : Shifts G) (hsep : StaysIn G separator) (hitem : StaysIn F item)
    (hshift : ∀ {t rest}, separator (t ++ rest) = .read () rest → ∀ before after kind,
      F before after kind → G (t ++ before) after kind) :
    StaysIn G ⟨Reader.furtherItems separator item⟩ := by
  have hround : StaysIn G (separator >>= fun _ => item) :=
    bind_of_shift hsep (fun _ => hitem) fun hread => hshift hread
  intro s
  show (Reader.furtherItems separator item s).InText G s
  induction hn : s.length using Nat.strongRecOn generalizing s with
  | _ n ih =>
    have hs := hround s
    rw [Reader.furtherItems]
    cases h : (separator >>= fun _ => item) s with
    | missed stop => exact List.suffix_refl s
    | refused stop kind => rwa [h] at hs
    | read a rest =>
      rw [h] at hs
      obtain ⟨t, rfl⟩ := hs
      dsimp only
      split
      case isFalse => exact List.suffix_refl _
      case isTrue hlt =>
        have hrest := ih rest.length (hn ▸ hlt) rest rfl
        cases hfurther : Reader.furtherItems separator item rest with
        | read as left =>
          rw [hfurther] at hrest
          exact List.IsSuffix.trans hrest (List.suffix_append t rest)
        | missed stop =>
          rw [hfurther] at hrest
          exact List.IsSuffix.trans hrest (List.suffix_append t rest)
        | refused stop kind =>
          rw [hfurther] at hrest
          obtain ⟨before, rfl, hfault⟩ := hrest
          exact ⟨t ++ before, List.append_assoc _ _ _, hG _ _ _ _ hfault⟩

theorem sepBy1_eq_bind : sepBy1 separator item = item >>= fun a =>
    (a :: ·) <$> (⟨Reader.furtherItems separator item⟩ : Reader (List α)) :=
  rfl

/-- A list of items. A fault of an item is one behind a separator, too; and behind that, it stays
one whatever stands before it. -/
protected theorem sepBy1 (hG : Shifts G) (hsep : StaysIn G separator) (hitem : StaysIn F item)
    (hshift : ∀ {t rest}, separator (t ++ rest) = .read () rest → ∀ before after kind,
      F before after kind → G (t ++ before) after kind)
    (hGF : ∀ before after kind, G before after kind → F before after kind) :
    StaysIn F (sepBy1 separator item) := by
  rw [sepBy1_eq_bind]
  exact bind_of_shift hitem (fun a => (furtherItems hG hsep hitem hshift).map _)
    fun _ _ _ _ hfault => hGF _ _ _ (hG _ _ _ _ hfault)

/-- A list of items whose faults do not depend on what they stand after. -/
theorem sepBy1_of_shifts (hF : Shifts F) (hsep : StaysIn F separator) (hitem : StaysIn F item) :
    StaysIn F (sepBy1 separator item) :=
  .sepBy1 hF hsep hitem (fun _ _ _ _ => hF _ _ _ _) fun _ _ _ h => h

end StaysIn

/-! ## Whole texts -/

/-- Whatever ends the reading of a text, it stands in the text. If it has not the cause of texts
that fit no notation, it is a refusal for a fault. -/
theorem StaysIn.run {F : Fault} {p : Reader α} (h : StaysIn F p) {unfit kind : ErrorKind}
    {s : List Char} {stop : Stop} (hrun : p.run unfit s = .error (stop, kind)) :
    ∃ before, before ++ stop.leftover = s ∧ (kind = unfit ∨ F before stop.leftover kind) := by
  have hs := h s
  rw [Reader.run] at hrun
  cases hp : p s with
  | read a rest =>
    rw [hp] at hs hrun
    cases rest with
    | nil => cases hrun
    | cons c rest =>
      obtain ⟨rfl, rfl⟩ := Prod.mk.inj (Except.error.inj hrun)
      obtain ⟨before, hbefore⟩ := hs
      exact ⟨before, hbefore, Or.inl rfl⟩
  | missed stop' =>
    rw [hp] at hs hrun
    obtain ⟨rfl, rfl⟩ := Prod.mk.inj (Except.error.inj hrun)
    obtain ⟨before, hbefore⟩ := hs
    exact ⟨before, hbefore, Or.inl rfl⟩
  | refused stop' kind' =>
    rw [hp] at hs hrun
    obtain ⟨rfl, rfl⟩ := Prod.mk.inj (Except.error.inj hrun)
    obtain ⟨before, hbefore, hfault⟩ := hs
    exact ⟨before, hbefore, Or.inr hfault⟩

end Reader
end SemanticVersioning
