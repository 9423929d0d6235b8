import SemanticVersioning.Proofs.Version.Grammar
import SemanticVersioning.Range.Reader

/-!
# The notation of operands

An operand is an optional `v`, blanks, and up to three components joined by points, the third of
which may have a qualifier. `WritesComponent`, `WritesPatchPart`, `WritesMinorPart`, `WritesExtent`
and `WritesOperand` say which texts write operands, and which.

## The text of an operand

An operand remembers its text. The blanks after a `v` are part of it. Blanks before an operand
without a `v` are allowed by the notation but never part of the text, since whatever stands before
an operand takes the blanks after it: an operator, a tilde, a caret, and the layout between terms.
The two halves of exactness reflect this. `operand_sound` asks that no blank stands where the
reader begins, and `operand_complete` reads the operand from its own text, which is the written
text without the blanks in front (`WritesOperand.exists_blanks`). What the reader does where a blank
stands is said by `operand_parts`.
-/

namespace SemanticVersioning

open Reader Text

/-! ## Components -/

/-- The characters that stand for any number. -/
def isWildcard (c : Char) : Bool :=
  c == 'x' || c == 'X' || c == '*'

/-- A text that writes a component: a wildcard, or a number in the loose notation. -/
inductive WritesComponent : List Char → Option Nat → Prop
  | wildcard {c : Char} : isWildcard c = true → WritesComponent [c] none
  | number {t : List Char} {n : Nat} : WritesNumber true t n → WritesComponent t (some n)

/-- The characters with which a component begins. -/
def isComponentStart (c : Char) : Bool :=
  isWildcard c || c.isDigit

theorem isComponentStart_of_isDigit {c : Char} (h : c.isDigit = true) :
    isComponentStart c = true := by
  simp only [isComponentStart, h, Bool.or_true]

theorem isDigit_apart_isWildcard : Apart Char.isDigit isWildcard := by
  refine (apart_of_all ['x', 'X', '*'] (fun c hc => ?_) (by decide)).symm
  simpa [isWildcard, or_assoc] using hc

/-- The reader of wildcards. -/
private def wildcard : Reader Unit :=
  orElse (literal ['x']) (orElse (literal ['X']) (literal ['*']))

private theorem component_eq : component =
    orElse ((fun _ => none) <$> wildcard) (some <$> number true) := rfl

private theorem wildcard_misses {s : List Char} (h : Avoids isWildcard s) : Misses wildcard s := by
  have hx : Avoids (· == 'x') s := h.mono fun c hc => by simp [isWildcard, eq_of_beq hc]
  have hX : Avoids (· == 'X') s := h.mono fun c hc => by simp [isWildcard, eq_of_beq hc]
  have hstar : Avoids (· == '*') s := h.mono fun c hc => by simp [isWildcard, eq_of_beq hc]
  exact (literal_singleton_misses hx).orElse
    ((literal_singleton_misses hX).orElse (literal_singleton_misses hstar))

private theorem wildcard_eq_read_iff {s rest : List Char} {x : Unit} :
    wildcard s = .read x rest ↔ ∃ c, s = c :: rest ∧ isWildcard c = true := by
  constructor
  · intro h
    rcases orElse_eq_read_iff.1 h with h | ⟨-, h⟩
    · exact ⟨'x', literal_eq_read_iff.1 h, rfl⟩
    · rcases orElse_eq_read_iff.1 h with h | ⟨-, h⟩
      · exact ⟨'X', literal_eq_read_iff.1 h, rfl⟩
      · exact ⟨'*', literal_eq_read_iff.1 h, rfl⟩
  · rintro ⟨c, rfl, hc⟩
    simp only [isWildcard, Bool.or_eq_true, beq_iff_eq] at hc
    rcases hc with (rfl | rfl) | rfl <;> rfl

/-- Where no wildcard stands a component is a number. -/
theorem component_apply_of_avoids {s : List Char} (h : Avoids isWildcard s) :
    component s = (some <$> number true) s := by
  rw [component_eq, (wildcard_misses h).map.orElse_apply]

theorem component_sound {s rest : List Char} {x : Option Nat} (h : component s = .read x rest) :
    ∃ t, s = t ++ rest ∧ WritesComponent t x ∧ (x.isSome = true → Avoids Char.isDigit rest) := by
  rw [component_eq] at h
  rcases orElse_eq_read_iff.1 h with h | ⟨-, h⟩
  · obtain ⟨⟨⟩, mid, hwildcard, hread⟩ := Outcome.andThen_eq_read_iff.1 h
    obtain ⟨rfl, rfl⟩ := Outcome.read.inj hread
    obtain ⟨c, rfl, hc⟩ := wildcard_eq_read_iff.1 hwildcard
    exact ⟨[c], rfl, .wildcard hc, nofun⟩
  · obtain ⟨n, mid, hnumber, hread⟩ := Outcome.andThen_eq_read_iff.1 h
    obtain ⟨rfl, rfl⟩ := Outcome.read.inj hread
    obtain ⟨t, rfl, ht, hrest⟩ := number_sound hnumber
    exact ⟨t, rfl, .number ht, fun _ => hrest rfl⟩

theorem component_complete {t rest : List Char} {x : Option Nat} (ht : WritesComponent t x)
    (hrest : x.isSome = true → Avoids Char.isDigit rest) :
    component (t ++ rest) = .read x rest := by
  cases ht with
  | @wildcard c hc =>
    rw [component_eq]
    refine orElse_apply_of_read (Outcome.andThen_eq_read_iff.2 ⟨(), rest, ?_, rfl⟩)
    exact wildcard_eq_read_iff.2 ⟨c, rfl, hc⟩
  | @number _ n ht =>
    rw [component_apply_of_avoids (ht.avoids isDigit_apart_isWildcard rest)]
    exact Outcome.andThen_eq_read_iff.2 ⟨n, rest, number_complete ht (hrest rfl), rfl⟩

/-- A component is missed where neither a wildcard nor a digit stands. -/
theorem component_misses {s : List Char} (h : Avoids isComponentStart s) : Misses component s := by
  have hwildcard : Avoids isWildcard s := h.mono fun c hc => by simp [isComponentStart, hc]
  have hdigit : Avoids Char.isDigit s := h.mono fun c hc => by simp [isComponentStart, hc]
  exact (wildcard_misses hwildcard).map.orElse (number_misses hdigit).map

theorem WritesComponent.exists_first {t : List Char} {x : Option Nat} (h : WritesComponent t x) :
    ∃ c r, t = c :: r ∧ isComponentStart c = true := by
  cases h with
  | @wildcard c hc => exact ⟨c, [], rfl, by simp [isComponentStart, hc]⟩
  | number hn =>
    cases t with
    | nil => exact absurd rfl hn.ne_nil
    | cons c r => exact ⟨c, r, rfl, by simp [isComponentStart, hn.digits c (by simp)]⟩

/-! ## Extents -/

/-- A text that writes a third component with its qualifier, after a point. -/
inductive WritesPatchPart : List Char → Option Nat × List Identifier × List String → Prop
  | intro {c q : List Char} {z : Option Nat} {is : List Identifier} {parts : List String} :
      WritesComponent c z → WritesQualifier true z.isSome q is parts →
        WritesPatchPart ('.' :: (c ++ q)) (z, is, parts)

/-- A text that writes a second component, after a point, and perhaps a third one. -/
inductive WritesMinorPart :
    List Char → Option Nat × Option (Option Nat × List Identifier × List String) → Prop
  | last {b : List Char} {y : Option Nat} :
      WritesComponent b y → WritesMinorPart ('.' :: b) (y, none)
  | more {b t : List Char} {y : Option Nat} {z : Option Nat × List Identifier × List String} :
      WritesComponent b y → WritesPatchPart t z → WritesMinorPart ('.' :: (b ++ t)) (y, some z)

/-- A text that writes the extent of an operand: one component, and perhaps more. -/
inductive WritesExtent : List Char → Extent → Prop
  | last {a : List Char} {x : Option Nat} :
      WritesComponent a x → WritesExtent a (.ofComponents x none)
  | more {a t : List Char} {x : Option Nat}
      {y : Option Nat × Option (Option Nat × List Identifier × List String)} :
      WritesComponent a x → WritesMinorPart t y → WritesExtent (a ++ t) (.ofComponents x (some y))

/-- What begins with a point does not continue a number. -/
theorem avoids_isDigit_point (s : List Char) : Avoids Char.isDigit ('.' :: s) :=
  avoids_cons_iff.2 (by decide)

theorem avoids_point {s : List Char} (h : Avoids isQualifierChar s) :
    Avoids (· == '.') s :=
  h.mono fun c hc => by simp only [isQualifierChar, isPartChar, hc, Bool.or_true, Bool.true_or]

theorem avoids_isDigit {s : List Char} (h : Avoids isQualifierChar s) :
    Avoids Char.isDigit s :=
  h.mono fun _ => isQualifierChar_of_isDigit

theorem patchPart_sound {s rest : List Char} {z : Option Nat × List Identifier × List String}
    (h : patchPart s = .read z rest) : ∃ t, s = t ++ rest ∧ WritesPatchPart t z := by
  simp only [patchPart, bind_eq_read_iff, literal_eq_read_iff, pure_apply, Outcome.read.injEq] at h
  obtain ⟨-, s₁, rfl, x, s₂, hx, ⟨is, parts⟩, s₃, hqualifier, rfl, rfl⟩ := h
  obtain ⟨c, rfl, hc, hdigit⟩ := component_sound hx
  obtain ⟨q, rfl, hq⟩ := qualifier_sound (fun _ => hdigit) hqualifier
  exact ⟨'.' :: (c ++ q), by simp, .intro hc hq⟩

theorem patchPart_complete {t rest : List Char} {z : Option Nat × List Identifier × List String}
    (ht : WritesPatchPart t z) (hrest : Avoids isQualifierChar rest) :
    patchPart (t ++ rest) = .read z rest := by
  cases ht with
  | @intro c q x is parts hc hq =>
    have hdigit : x.isSome = true → Avoids Char.isDigit (q ++ rest) := by
      intro hx
      rw [hx] at hq
      exact hq.avoids_isDigit (avoids_isDigit hrest)
    simp only [patchPart, bind_eq_read_iff, literal_eq_read_iff, pure_apply, Outcome.read.injEq]
    refine ⟨(), c ++ (q ++ rest), by simp, x, q ++ rest, component_complete hc hdigit,
      (is, parts), rest, qualifier_complete hq hrest, rfl, rfl⟩

theorem patchPart_misses {s : List Char} (h : Avoids (· == '.') s) : Misses patchPart s :=
  (literal_singleton_misses h).bind

theorem minorPart_sound {s rest : List Char}
    {y : Option Nat × Option (Option Nat × List Identifier × List String)}
    (h : minorPart s = .read y rest) : ∃ t, s = t ++ rest ∧ WritesMinorPart t y := by
  simp only [minorPart, bind_eq_read_iff, literal_eq_read_iff, pure_apply, Outcome.read.injEq] at h
  obtain ⟨-, s₁, rfl, x, s₂, hx, z, s₃, hz, rfl, rfl⟩ := h
  obtain ⟨b, rfl, hb, -⟩ := component_sound hx
  rcases optional_eq_read_iff.1 hz with ⟨z, rfl, hpatch⟩ | ⟨rfl, -, rfl⟩
  · obtain ⟨t, rfl, ht⟩ := patchPart_sound hpatch
    exact ⟨'.' :: (b ++ t), by simp, .more hb ht⟩
  · exact ⟨'.' :: b, rfl, .last hb⟩

theorem minorPart_complete {t rest : List Char}
    {y : Option Nat × Option (Option Nat × List Identifier × List String)}
    (ht : WritesMinorPart t y) (hrest : Avoids isQualifierChar rest) :
    minorPart (t ++ rest) = .read y rest := by
  simp only [minorPart, bind_eq_read_iff, literal_eq_read_iff, pure_apply, Outcome.read.injEq]
  cases ht with
  | @last b y hb =>
    exact ⟨(), b ++ rest, rfl, y, rest, component_complete hb fun _ => avoids_isDigit hrest, none,
      rest, (patchPart_misses (avoids_point hrest)).optional_apply, rfl, rfl⟩
  | @more b t y z hb ht =>
    have hdigit : Avoids Char.isDigit (t ++ rest) := by
      cases ht with
      | intro => exact avoids_isDigit_point _
    exact ⟨(), b ++ (t ++ rest), by simp, y, t ++ rest, component_complete hb fun _ => hdigit,
      some z, rest, optional_apply_of_read (patchPart_complete ht hrest), rfl, rfl⟩

theorem minorPart_misses {s : List Char} (h : Avoids (· == '.') s) : Misses minorPart s :=
  (literal_singleton_misses h).bind

theorem WritesExtent.exists_first {t : List Char} {e : Extent} (h : WritesExtent t e) :
    ∃ c r, t = c :: r ∧ isComponentStart c = true := by
  cases h with
  | last ha => exact ha.exists_first
  | @more a t _ _ ha _ =>
    obtain ⟨c, r, rfl, hc⟩ := ha.exists_first
    exact ⟨c, r ++ t, rfl, hc⟩

/-! ## Operands -/

/-- The letters that may stand before the components of an operand. -/
def isMark (c : Char) : Bool :=
  c == 'v' || c == 'V'

/-- A text that writes an operand, and the operand with its own text: from the letter in front on,
or else from the first component on. -/
inductive WritesOperand : List Char → Operand → Prop
  | marked {m : Char} {blanks t : List Char} {e : Extent} :
      isMark m = true → (∀ c ∈ blanks, isInlineSpace c = true) → WritesExtent t e →
        WritesOperand (m :: (blanks ++ t)) ⟨String.ofList (m :: (blanks ++ t)), e⟩
  | unmarked {blanks t : List Char} {e : Extent} :
      (∀ c ∈ blanks, isInlineSpace c = true) → WritesExtent t e →
        WritesOperand (blanks ++ t) ⟨String.ofList t, e⟩

/-- An operand without a letter and without blanks. -/
theorem WritesOperand.bare {t : List Char} {e : Extent} (ht : WritesExtent t e) :
    WritesOperand t ⟨String.ofList t, e⟩ := by
  have h : WritesOperand ([] ++ t) ⟨String.ofList t, e⟩ := .unmarked (by simp) ht
  exact h

/-- The characters with which the text of an operand begins. -/
def isOperandStart (c : Char) : Bool :=
  isMark c || isComponentStart c

theorem isOperandStart_of_isComponentStart {c : Char} (h : isComponentStart c = true) :
    isOperandStart c = true := by
  simp only [isOperandStart, h, Bool.or_true]

theorem inlineSpace_apply (s : List Char) :
    inlineSpace s = .read () (s.dropWhile isInlineSpace) := rfl

/-- The reader of the letter in front of an operand. -/
def mark : Reader (Option Unit) :=
  optional (orElse (literal ['v']) (literal ['V']))

theorem mark_misses {s : List Char} (h : Avoids isMark s) :
    mark s = .read none s := by
  have hv : Avoids (· == 'v') s := h.mono fun c hc => by simp [isMark, eq_of_beq hc]
  have hV : Avoids (· == 'V') s := h.mono fun c hc => by simp [isMark, eq_of_beq hc]
  exact ((literal_singleton_misses hv).orElse (literal_singleton_misses hV)).optional_apply

theorem mark_cons {m : Char} (h : isMark m = true) (s : List Char) :
    mark (m :: s) = .read (some ()) s := by
  simp only [isMark, Bool.or_eq_true, beq_iff_eq] at h
  rcases h with rfl | rfl <;> rfl

/-- The reader of the components of an operand. -/
theorem extent_eq : extent = mark >>= fun _ => inlineSpace >>= fun _ =>
    component >>= fun x => optional minorPart >>= fun y => pure (.ofComponents x y) := rfl

/-- Where neither a letter nor a blank stands in front an operand is its components. -/
theorem extent_apply_of_avoids {s : List Char} (hmark : Avoids isMark s)
    (hspace : Avoids isInlineSpace s) : extent s = (component >>= fun x =>
      optional minorPart >>= fun y => pure (Extent.ofComponents x y)) s := by
  rw [extent_eq, bind_apply, mark_misses hmark, Outcome.andThen_read, bind_apply, inlineSpace_apply,
    hspace.dropWhile_eq, Outcome.andThen_read]

/-- What is read of an operand after the letter and the blanks in front. -/
private theorem extent_eq_read_iff {s rest : List Char} {e : Extent} :
    extent s = .read e rest ↔ ∃ m mid x s₁ y, mark s = .read m mid ∧
      component (mid.dropWhile isInlineSpace) = .read x s₁ ∧ optional minorPart s₁ = .read y rest ∧
        e = .ofComponents x y := by
  simp only [extent_eq, bind_eq_read_iff, inlineSpace_apply, pure_apply, Outcome.read.injEq]
  constructor
  · rintro ⟨m, mid, hm, -, _, ⟨-, rfl⟩, x, s₁, hx, y, _, hy, rfl, rfl⟩
    exact ⟨m, mid, x, s₁, y, hm, hx, hy, rfl⟩
  · rintro ⟨m, mid, x, s₁, y, hm, hx, hy, rfl⟩
    exact ⟨m, mid, hm, (), _, ⟨trivial, rfl⟩, x, s₁, hx, y, rest, hy, rfl, rfl⟩

private theorem components_sound {s s₁ rest : List Char} {x : Option Nat}
    {y : Option (Option Nat × Option (Option Nat × List Identifier × List String))}
    (hx : component s = .read x s₁) (hy : optional minorPart s₁ = .read y rest) :
    ∃ t, s = t ++ rest ∧ WritesExtent t (.ofComponents x y) := by
  obtain ⟨a, rfl, ha, -⟩ := component_sound hx
  rcases optional_eq_read_iff.1 hy with ⟨y, rfl, hminor⟩ | ⟨rfl, -, rfl⟩
  · obtain ⟨t, rfl, ht⟩ := minorPart_sound hminor
    exact ⟨a ++ t, by simp, .more ha ht⟩
  · exact ⟨a, rfl, .last ha⟩

private theorem components_complete {t rest : List Char} {e : Extent} (ht : WritesExtent t e)
    (hrest : Avoids isQualifierChar rest) :
    ∃ x s₁ y, component (t ++ rest) = .read x s₁ ∧ optional minorPart s₁ = .read y rest ∧
      e = .ofComponents x y := by
  cases ht with
  | @last a x ha =>
    exact ⟨x, rest, none, component_complete ha fun _ => avoids_isDigit hrest,
      (minorPart_misses (avoids_point hrest)).optional_apply, rfl⟩
  | @more a t x y ha ht =>
    have hdigit : Avoids Char.isDigit (t ++ rest) := by
      cases ht with
      | last => exact avoids_isDigit_point _
      | more => exact avoids_isDigit_point _
    rw [List.append_assoc]
    exact ⟨x, t ++ rest, some y, component_complete ha fun _ => hdigit,
      optional_apply_of_read (minorPart_complete ht hrest), rfl⟩

/-- The letter in front is read if there is one. -/
private theorem mark_eq_read_imp {s mid : List Char} {x : Option Unit}
    (h : mark s = .read x mid) : (∃ m, isMark m = true ∧ s = m :: mid) ∨ mid = s := by
  cases s with
  | nil => exact Or.inr (Outcome.read.inj ((mark_misses (avoids_nil _)).symm.trans h)).2.symm
  | cons c s =>
    cases hc : isMark c with
    | true =>
      obtain ⟨-, rfl⟩ := Outcome.read.inj ((mark_cons hc s).symm.trans h)
      exact Or.inl ⟨c, hc, rfl⟩
    | false =>
      have hmiss := mark_misses (avoids_cons_iff.2 hc : Avoids isMark (c :: s))
      exact Or.inr (Outcome.read.inj (hmiss.symm.trans h)).2.symm

private theorem operand_eq_read_iff {s rest : List Char} {o : Operand} :
    operand s = .read o rest ↔ ∃ e, extent s = .read e rest ∧
      o = ⟨String.ofList (s.take (s.length - rest.length)), e⟩ := by
  simp only [operand, bind_eq_read_iff, spelled_eq_read_iff, pure_apply, Outcome.read.injEq,
    Prod.exists]
  constructor
  · rintro ⟨t, e, _, ⟨he, rfl⟩, rfl, rfl⟩
    exact ⟨e, he, rfl⟩
  · rintro ⟨e, he, rfl⟩
    exact ⟨_, e, rest, ⟨he, rfl⟩, rfl, rfl⟩

private theorem take_length_sub (t rest : List Char) :
    (t ++ rest).take ((t ++ rest).length - rest.length) = t := by
  simp

/-- What is read as an operand is a letter or none, blanks, and components, and all of this is the
operand's own text. -/
theorem operand_parts {s rest : List Char} {o : Operand} (h : operand s = .read o rest) :
    ∃ letter blanks t, s = letter ++ (blanks ++ t) ++ rest ∧
      o.text = String.ofList (letter ++ (blanks ++ t)) ∧
        (letter = [] ∨ ∃ m, isMark m = true ∧ letter = [m]) ∧
          (∀ c ∈ blanks, isInlineSpace c = true) ∧ WritesExtent t o.extent := by
  obtain ⟨e, he, rfl⟩ := operand_eq_read_iff.1 h
  obtain ⟨x, mid, major, s₁, y, hmark, hx, hy, rfl⟩ := extent_eq_read_iff.1 he
  obtain ⟨t, ht, hextent⟩ := components_sound hx hy
  have hmid : mid = mid.takeWhile isInlineSpace ++ t ++ rest := by
    rw [List.append_assoc, ← ht, List.takeWhile_append_dropWhile]
  have hblanks : ∀ c ∈ mid.takeWhile isInlineSpace, isInlineSpace c = true :=
    List.all_eq_true.1 List.all_takeWhile
  have hletter : ∃ letter, s = letter ++ mid ∧
      (letter = [] ∨ ∃ m, isMark m = true ∧ letter = [m]) := by
    rcases mark_eq_read_imp hmark with ⟨m, hm, rfl⟩ | rfl
    · exact ⟨[m], rfl, Or.inr ⟨m, hm, rfl⟩⟩
    · exact ⟨[], rfl, Or.inl rfl⟩
  obtain ⟨letter, rfl, hletter⟩ := hletter
  have hs : letter ++ mid = letter ++ (mid.takeWhile isInlineSpace ++ t) ++ rest := by
    rw [List.append_assoc, ← hmid]
  refine ⟨letter, mid.takeWhile isInlineSpace, t, hs, ?_, hletter, hblanks, hextent⟩
  rw [hs, take_length_sub]

/-- **What is read as an operand writes it**, where no blank stands in front. -/
theorem operand_sound {s rest : List Char} {o : Operand} (hs : Avoids isInlineSpace s)
    (h : operand s = .read o rest) : ∃ t, s = t ++ rest ∧ WritesOperand t o := by
  obtain ⟨letter, blanks, t, rfl, htext, hletter, hblanks, hextent⟩ := operand_parts h
  obtain ⟨text, e⟩ := o
  obtain rfl : text = _ := htext
  refine ⟨_, rfl, ?_⟩
  rcases hletter with rfl | ⟨m, hm, rfl⟩
  · -- Blanks without a letter before them would stand in front.
    have hnone : blanks = [] := by
      cases blanks with
      | nil => rfl
      | cons c blanks => exact absurd (hblanks c (by simp)) (by simp [avoids_cons_iff.1 hs])
    rw [hnone]
    exact .bare hextent
  · have hmarked : WritesOperand (m :: (blanks ++ t)) ⟨String.ofList (m :: (blanks ++ t)), e⟩ :=
      .marked hm hblanks hextent
    exact hmarked

/-- The written text of an operand is its own text, with blanks in front at most. -/
theorem WritesOperand.exists_blanks {t : List Char} {o : Operand} (h : WritesOperand t o) :
    ∃ blanks, (∀ c ∈ blanks, isInlineSpace c = true) ∧ t = blanks ++ o.text.toList ∧
      WritesOperand o.text.toList o := by
  cases h with
  | @marked m blanks t e hm hblanks ht =>
    simp only [String.toList_ofList]
    exact ⟨[], by simp, rfl, .marked hm hblanks ht⟩
  | @unmarked blanks t e hblanks ht =>
    simp only [String.toList_ofList]
    exact ⟨blanks, hblanks, rfl, .bare ht⟩

/-- The text of an operand begins with its letter or its first component. -/
theorem WritesOperand.exists_first {t : List Char} {o : Operand} (h : WritesOperand t o) :
    ∃ c r, o.text.toList = c :: r ∧ isOperandStart c = true := by
  cases h with
  | @marked m blanks t e hm _ _ => exact ⟨m, blanks ++ t, by simp, by simp [isOperandStart, hm]⟩
  | unmarked _ ht =>
    obtain ⟨c, r, rfl, hc⟩ := ht.exists_first
    exact ⟨c, r, by simp, by simp [isOperandStart, hc]⟩

theorem isComponentStart_apart_isInlineSpace : Apart isComponentStart isInlineSpace := by
  refine (apart_of_all [' ', '\t'] (fun c hc => ?_) (by decide)).symm
  simpa [isInlineSpace] using hc

theorem isComponentStart_apart_isMark : Apart isComponentStart isMark := by
  refine (apart_of_all ['v', 'V'] (fun c hc => ?_) (by decide)).symm
  simpa [isMark] using hc

/-- **An operand is read from its own text**, in front of a rest that cannot continue it. -/
theorem operand_complete {t rest : List Char} {o : Operand} (h : WritesOperand t o)
    (hrest : Avoids isQualifierChar rest) :
    operand (o.text.toList ++ rest) = .read o rest := by
  have hread : extent (o.text.toList ++ rest) = .read o.extent rest := by
    cases h with
    | @marked m blanks t e hm hblanks ht =>
      obtain ⟨x, s₁, y, hx, hy, rfl⟩ := components_complete ht hrest
      obtain ⟨c, r, rfl, hc⟩ := ht.exists_first
      have hskip : (blanks ++ (c :: r ++ rest)).dropWhile isInlineSpace = c :: r ++ rest := by
        rw [dropWhile_append_eq hblanks, Avoids.dropWhile_eq]
        exact avoids_cons_iff.2 (isComponentStart_apart_isInlineSpace c hc)
      rw [String.toList_ofList, List.cons_append, List.append_assoc]
      exact extent_eq_read_iff.2 ⟨some (), blanks ++ (c :: r ++ rest), x, s₁, y,
        mark_cons hm _, by rwa [hskip], hy, rfl⟩
    | @unmarked blanks t e _ ht =>
      obtain ⟨x, s₁, y, hx, hy, rfl⟩ := components_complete ht hrest
      obtain ⟨c, r, rfl, hc⟩ := ht.exists_first
      have hspace : Avoids isInlineSpace (c :: r ++ rest) :=
        avoids_cons_iff.2 (isComponentStart_apart_isInlineSpace c hc)
      have hmark : Avoids isMark (c :: r ++ rest) :=
        avoids_cons_iff.2 (isComponentStart_apart_isMark c hc)
      rw [String.toList_ofList]
      exact extent_eq_read_iff.2 ⟨none, c :: r ++ rest, x, s₁, y, mark_misses hmark,
        by rwa [hspace.dropWhile_eq], hy, rfl⟩
  exact operand_eq_read_iff.2 ⟨o.extent, hread, by rw [take_length_sub, String.ofList_toList]⟩

/-- An operand is missed where nothing but blanks stands in front of what is no component. -/
theorem operand_misses {s : List Char} (hmark : Avoids isMark s)
    (hstart : Avoids isComponentStart (s.dropWhile isInlineSpace)) : Misses operand s := by
  have hextent : Misses extent s :=
    .bind_of_read (mark_misses hmark) (.bind_of_read (inlineSpace_apply s)
      (component_misses hstart).bind)
  exact hextent.spelled.bind

end SemanticVersioning
