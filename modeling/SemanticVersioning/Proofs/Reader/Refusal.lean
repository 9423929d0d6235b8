import SemanticVersioning.Proofs.Reader.Exactness

/-!
# Where readers refuse

A text is refused, and not just missed, where it is of the notation but wrong. Nothing swallows a
refusal, so it is found by following the reader up to the place that is wrong, past what it reads
before, and from there outwards through the combinators (`Reader.Refuses`).

Lists are the case with an argument in it (`Judges.sepBy1_refuses`). A list with an item that is
wrong is refused at the first such item: the items before it are read, each with the separator after
it, and each of these rounds takes something from the text. The kind of the cause is kept
throughout, its place and the production in which it was found are not.
-/

namespace SemanticVersioning

variable {α β : Type}

/-- The texts of a list, written with the separator in front of each text but the first. -/
theorem Text.intercalate_cons (sep t : List Char) (ts : List (List Char)) :
    sep.intercalate (t :: ts) = t ++ ts.flatMap (sep ++ ·) := by
  induction ts generalizing t with
  | nil => rw [List.intercalate_singleton, List.flatMap_nil, List.append_nil]
  | cons u ts ih =>
    rw [List.intercalate_cons_cons, ih u, List.flatMap_cons]
    simp only [List.append_assoc]

namespace Reader

/-- The reader refuses the text for a cause of a kind, wherever it stops. -/
def Refuses (K : ErrorKind → Prop) (p : Reader α) (s : List Char) : Prop :=
  ∃ stop kind, K kind ∧ p s = .refused stop kind

namespace Refuses

variable {K : ErrorKind → Prop} {p : Reader α} {s mid : List Char} {a : α}

theorem bind {next : α → Reader β} (h : Refuses K p s) : Refuses K (p >>= next) s := by
  obtain ⟨stop, kind, hkind, h⟩ := h
  exact ⟨stop, kind, hkind, by rw [bind_apply, h, Outcome.andThen_refused]⟩

/-- What is refused after something was read is refused as a whole. -/
theorem bind_of_read {next : α → Reader β} (hp : p s = .read a mid)
    (h : Refuses K (next a) mid) : Refuses K (p >>= next) s := by
  obtain ⟨stop, kind, hkind, h⟩ := h
  exact ⟨stop, kind, hkind, by rw [bind_apply, hp, Outcome.andThen_read, h]⟩

theorem map {f : α → β} (h : Refuses K p s) : Refuses K (f <$> p) s := by
  obtain ⟨stop, kind, hkind, h⟩ := h
  exact ⟨stop, kind, hkind, by rw [map_apply, h, Outcome.andThen_refused]⟩

/-- A check that fails refuses what was read. -/
theorem checked_of_read {check : α → Except (ErrorKind × Option Production) β} {kind : ErrorKind}
    {production : Option Production} (hp : p s = .read a mid)
    (hcheck : check a = .error (kind, production)) (hkind : K kind) :
    Refuses K (p.checked check) s := by
  refine ⟨⟨s, production⟩, kind, hkind, ?_⟩
  rw [checked_apply, hp, Outcome.andThen_read, hcheck]

theorem within {production : Production} (h : Refuses K p s) :
    Refuses K (within production p) s := by
  obtain ⟨stop, kind, hkind, h⟩ := h
  exact ⟨stop.within production, kind, hkind, by simp only [Reader.within, h]⟩

theorem spelled (h : Refuses K p s) : Refuses K (spelled p) s := by
  obtain ⟨stop, kind, hkind, h⟩ := h
  exact ⟨stop, kind, hkind, by simp only [Reader.spelled, h, Outcome.andThen_refused]⟩

/-- No other alternative is tried. -/
theorem orElse {q : Reader α} (h : Refuses K p s) : Refuses K (p.orElse q) s := by
  obtain ⟨stop, kind, hkind, h⟩ := h
  exact ⟨stop, kind, hkind, by simp only [Reader.orElse, h]⟩

theorem orElse_of_misses {q : Reader α} (hp : Misses p s) (h : Refuses K q s) :
    Refuses K (p.orElse q) s := by
  obtain ⟨stop, kind, hkind, h⟩ := h
  exact ⟨stop, kind, hkind, by rw [hp.orElse_apply, h]⟩

/-- A part that is wrong is not absent. -/
theorem optional (h : Refuses K p s) : Refuses K (optional p) s := by
  obtain ⟨stop, kind, hkind, h⟩ := h
  exact ⟨stop, kind, hkind, by simp only [Reader.optional, h]⟩

end Refuses

/-! ## Lists -/

section Lists

variable {K : ErrorKind → Prop} {separator : Reader Unit} {item : Reader α} {s mid : List Char}

theorem Refuses.sepBy1 (h : Refuses K item s) : Refuses K (sepBy1 separator item) s := by
  obtain ⟨stop, kind, hkind, h⟩ := h
  exact ⟨stop, kind, hkind, by simp only [Reader.sepBy1, h, Outcome.andThen_refused]⟩

theorem Refuses.sepBy1_of_read {a : α} (ha : item s = .read a mid)
    (h : Refuses K ⟨furtherItems separator item⟩ mid) :
    Refuses K (Reader.sepBy1 separator item) s := by
  obtain ⟨stop, kind, hkind, h⟩ := h
  have hfurther : furtherItems separator item mid = .refused stop kind := h
  refine ⟨stop, kind, hkind, ?_⟩
  simp only [Reader.sepBy1, ha, Outcome.andThen_read, hfurther, Outcome.andThen_refused]

/-- A list is not ended by an item that is wrong. -/
theorem furtherItems_refuses_of_item (hsep : separator s = .read () mid) (h : Refuses K item mid) :
    Refuses K ⟨furtherItems separator item⟩ s := by
  have hround : Refuses K (separator >>= fun _ => item) s := .bind_of_read hsep h
  obtain ⟨stop, kind, hkind, hround⟩ := hround
  refine ⟨stop, kind, hkind, ?_⟩
  show furtherItems separator item s = _
  rw [furtherItems, hround]

/-- A list that goes on is refused where the rest of it is. -/
theorem furtherItems_refuses_of_read {a : α} {after : List Char}
    (hsep : separator s = .read () mid) (ha : item mid = .read a after)
    (hlt : after.length < s.length) (h : Refuses K ⟨furtherItems separator item⟩ after) :
    Refuses K ⟨furtherItems separator item⟩ s := by
  have hround : (separator >>= fun _ => item) s = .read a after :=
    bind_eq_read_iff.2 ⟨(), mid, hsep, ha⟩
  obtain ⟨stop, kind, hkind, h⟩ := h
  have hfurther : furtherItems separator item after = .refused stop kind := h
  refine ⟨stop, kind, hkind, ?_⟩
  show furtherItems separator item s = _
  rw [furtherItems, hround]
  simp only [hlt, if_true, hfurther, Outcome.andThen_refused]

end Lists

/-- What the readers of a list make of items that have a text each and may be wrong. In front of
what may follow an item, it is read if it is right and refused if it is wrong. The separator is read
in front of each item, and with the item after it may follow another one. -/
structure Judges (K : ErrorKind → Prop) (separator : Reader Unit) (item : Reader α)
    (sep : List Char) (text : β → List Char) (value : β → α) (Wrong : β → Prop)
    (Follow : List Char → Prop) (bs : List β) : Prop where
  sep_ne_nil : sep ≠ []
  separator : ∀ b ∈ bs, ∀ s, separator (sep ++ (text b ++ s)) = .read () (text b ++ s)
  follow : ∀ b ∈ bs, ∀ s, Follow (sep ++ (text b ++ s))
  read : ∀ b ∈ bs, ¬ Wrong b → ∀ s, Follow s → item (text b ++ s) = .read (value b) s
  refused : ∀ b ∈ bs, Wrong b → ∀ s, Follow s → Refuses K item (text b ++ s)

namespace Judges

variable {K : ErrorKind → Prop} {separator : Reader Unit} {item : Reader α} {sep : List Char}
  {text : β → List Char} {value : β → α} {Wrong : β → Prop} {Follow : List Char → Prop}
  {b : β} {bs : List β} {rest : List Char}

theorem of_cons (h : Judges K separator item sep text value Wrong Follow (b :: bs)) :
    Judges K separator item sep text value Wrong Follow bs where
  sep_ne_nil := h.sep_ne_nil
  separator c hc := h.separator c (List.mem_cons_of_mem b hc)
  follow c hc := h.follow c (List.mem_cons_of_mem b hc)
  read c hc := h.read c (List.mem_cons_of_mem b hc)
  refused c hc := h.refused c (List.mem_cons_of_mem b hc)

/-- The further items of a list may follow its first. -/
theorem follow_append (h : Judges K separator item sep text value Wrong Follow bs)
    (hrest : Follow rest) : Follow (bs.flatMap (fun c => sep ++ text c) ++ rest) := by
  cases bs with
  | nil => exact hrest
  | cons b bs =>
    rw [List.flatMap_cons, List.append_assoc, List.append_assoc]
    exact h.follow b List.mem_cons_self _

/-- The further items of a list are refused at the first that is wrong. -/
theorem furtherItems_refuses (h : Judges K separator item sep text value Wrong Follow bs)
    (hrest : Follow rest) (hwrong : ∃ b ∈ bs, Wrong b) :
    Refuses K ⟨furtherItems separator item⟩ (bs.flatMap (fun c => sep ++ text c) ++ rest) := by
  induction bs with
  | nil =>
    obtain ⟨b, hb, -⟩ := hwrong
    exact nomatch hb
  | cons b bs ih =>
    have hmem : b ∈ b :: bs := List.mem_cons_self
    have hfollow := h.of_cons.follow_append hrest
    have hseparator := h.separator b hmem (bs.flatMap (fun c => sep ++ text c) ++ rest)
    rw [List.flatMap_cons, List.append_assoc, List.append_assoc]
    by_cases hb : Wrong b
    · exact furtherItems_refuses_of_item hseparator (h.refused b hmem hb _ hfollow)
    · have hlater : ∃ c ∈ bs, Wrong c := by simpa [hb] using hwrong
      have hpos : 0 < sep.length := List.length_pos_iff.2 h.sep_ne_nil
      refine furtherItems_refuses_of_read hseparator (h.read b hmem hb _ hfollow) ?_
        (ih h.of_cons hlater)
      simp only [List.length_append]
      omega

/-- **A list is refused if one of its items is wrong.** -/
theorem sepBy1_refuses (h : Judges K separator item sep text value Wrong Follow bs)
    (hrest : Follow rest) (hwrong : ∃ b ∈ bs, Wrong b) :
    Refuses K (sepBy1 separator item) (sep.intercalate (bs.map text) ++ rest) := by
  cases bs with
  | nil =>
    obtain ⟨b, hb, -⟩ := hwrong
    exact nomatch hb
  | cons b bs =>
    have hmem : b ∈ b :: bs := List.mem_cons_self
    have hfollow := h.of_cons.follow_append hrest
    rw [List.map_cons, Text.intercalate_cons, List.flatMap_map, List.append_assoc]
    by_cases hb : Wrong b
    · exact (h.refused b hmem hb _ hfollow).sepBy1
    · have hlater : ∃ c ∈ bs, Wrong c := by simpa [hb] using hwrong
      exact .sepBy1_of_read (h.read b hmem hb _ hfollow)
        (h.of_cons.furtherItems_refuses hrest hlater)

end Judges
end Reader
end SemanticVersioning
