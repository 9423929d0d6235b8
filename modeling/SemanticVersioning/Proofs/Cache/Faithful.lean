import SemanticVersioning.Cache.Basic
import SemanticVersioning.Proofs.Range.OperandText

/-!
# Caches remember what would be read

A cache is faithful if each value in it is what its key is read as without a cache
(`Cache.Faithful`). This module proves that reading through a faithful cache gives what is read
without one, and leaves a faithful cache behind.

## The two writers of the version table

The table of versions is written by whoever reads a version text, and by whoever reads a range text
with complete operands in it. The first stores what it has just read. The second stores a version
that the reader of ranges has put together from an operand, under the text of the operand and the
loose options, although no one has read that text as a version. That both store the same is
`WritesOperand.parse_eq_ok`. It needs a text that writes the operand, so the operands of a range
text are followed from the text to the table (`WritesAlternatives.exists_of_mem_operands`).

## What the tables do with their entries

Nothing is used of the order in which entries leave. A table only ever drops entries, and adds one
that was computed for its key; so whatever holds of all entries goes on to hold
(`Table.Holds`). In particular the capacity plays no part.
-/

namespace SemanticVersioning

variable {α β ε σ : Type}

/-! ## What holds of all entries of a table -/

namespace Table

/-- Each value of the table is related to its key. -/
def Holds (P : Key → α → Prop) (table : Table α) : Prop :=
  ∀ key a, table.valueAt? key.place = some a → P key a

variable {P : Key → α → Prop} {table : Table α}

theorem holds_empty (capacity : Nat) : Holds P (empty capacity) := by
  intro key a h
  rw [valueAt?_empty] at h
  exact nomatch h

theorem Holds.clear : Holds P table.clear := by
  intro key a h
  rw [valueAt?_clear] at h
  exact nomatch h

theorem Holds.get (h : Holds P table) (key : Key) : Holds P (table.get key).2 := by
  intro key' a ha
  rw [valueAt?_get] at ha
  exact h key' a ha

theorem Holds.of_get (h : Holds P table) (key : Key) {a : α} (ha : (table.get key).1 = some a) :
    P key a := by
  rw [get_fst] at ha
  exact h key a ha

theorem Holds.eraseValue (h : Holds P table) (place : Fin 4 × String) :
    Holds P (table.eraseValue place) := by
  intro key a ha
  rw [valueAt?_eraseValue] at ha
  split at ha
  · exact nomatch ha
  · exact h key a ha

theorem Holds.setValue (h : Holds P table) {key : Key} {a : α} (ha : P key a) :
    Holds P (table.setValue key.place a) := by
  intro key' b hb
  rw [valueAt?_setValue] at hb
  split at hb
  case isTrue hplace =>
    obtain rfl := Key.place_injective hplace
    obtain rfl := Option.some.inj hb
    exact ha
  case isFalse => exact h key' b hb

/-- What is left after entries have left was there before. -/
theorem Holds.evict (h : Holds P table) (queue : List (Fin 4 × String)) :
    Holds P (table.evict queue) := by
  induction queue generalizing table with
  | nil => exact h
  | cons place queue ih =>
    rw [Table.evict]
    split
    · exact ih (h.eraseValue place)
    · exact h

theorem Holds.insert (h : Holds P table) {key : Key} {a : α} (ha : P key a) :
    Holds P (table.insert key a) := by
  rw [Table.insert]
  split
  · exact h
  · split
    · exact h.setValue ha
    · exact (h.setValue ha).evict _

/-- A table whose values are what a function computes answers as that function. -/
theorem Holds.getOrInsert {compute : Key → Except ε α}
    (h : Holds (fun key a => compute key = .ok a) table) (key : Key) :
    (table.getOrInsert key fun _ => compute key).1 = compute key ∧
      Holds (fun key a => compute key = .ok a) (table.getOrInsert key fun _ => compute key).2 := by
  have hget := h.get key
  rw [Table.getOrInsert]
  cases hfound : table.get key with
  | mk found table' =>
    rw [hfound] at hget
    cases found with
    | some a =>
      have ha : compute key = .ok a := h.of_get key (by rw [hfound])
      exact ⟨ha.symm, hget⟩
    | none =>
      cases hcompute : compute key with
      | ok a => exact ⟨rfl, hget.insert hcompute⟩
      | error e => exact ⟨rfl, hget⟩

end Table

/-! ## Actions that return what they should -/

/-- From each state of a kind the action returns the value, and it ends in a state of that kind. -/
def Returns (I : σ → Prop) (action : StateM σ α) (a : α) : Prop :=
  ∀ s, I s → (action.run s).1 = a ∧ I (action.run s).2

namespace Returns

variable {I : σ → Prop}

theorem pure (a : α) : Returns I (Pure.pure a) a :=
  fun _ hs => ⟨rfl, hs⟩

theorem bind {action : StateM σ α} {next : α → StateM σ β} {a : α} {b : β}
    (h : Returns I action a) (hnext : Returns I (next a) b) : Returns I (action >>= next) b := by
  intro s hs
  obtain ⟨ha, hmid⟩ := h s hs
  have hrun : (action >>= next).run s = (next (action.run s).1).run (action.run s).2 := rfl
  rw [hrun, ha]
  exact hnext _ hmid

theorem listMapM {f : α → StateM σ β} {g : α → β} {as : List α}
    (h : ∀ a ∈ as, Returns I (f a) (g a)) : Returns I (as.mapM f) (as.map g) := by
  induction as with
  | nil =>
    rw [List.mapM_nil]
    exact pure []
  | cons a as ih =>
    rw [List.mapM_cons]
    have htail : Returns I (as.mapM f) (as.map g) :=
      ih fun b hb => h b (List.mem_cons_of_mem a hb)
    exact (h a List.mem_cons_self).bind (htail.bind (pure _))

theorem termMapM {f : α → StateM σ β} {g : α → β} {t : Term α}
    (h : ∀ a ∈ t.operands, Returns I (f a) (g a)) : Returns I (t.mapM f) (t.map g) := by
  cases t with
  | compare op a => exact (h a List.mem_cons_self).bind (pure _)
  | tilde a => exact (h a List.mem_cons_self).bind (pure _)
  | caret a => exact (h a List.mem_cons_self).bind (pure _)
  | hyphen a b =>
    have hb : Returns I (f b) (g b) := h b (List.mem_cons_of_mem a List.mem_cons_self)
    exact (h a List.mem_cons_self).bind (hb.bind (pure _))

theorem alternativesMapM {f : α → StateM σ β} {g : α → β} {alternatives : Alternatives α}
    (h : ∀ segment ∈ alternatives.segments, ∀ t ∈ segment, ∀ a ∈ t.operands,
      Returns I (f a) (g a)) :
    Returns I (alternatives.mapM f) (alternatives.map g) := by
  have hsegments : Returns I (alternatives.segments.mapM fun segment => segment.mapM (Term.mapM f))
      (alternatives.segments.map fun segment => segment.map (Term.map g)) := by
    refine listMapM fun segment hsegment => listMapM fun t ht => termMapM fun a ha => ?_
    exact h segment hsegment t ht a ha
  exact hsegments.bind (pure _)

end Returns

/-! ## Operands looked up in a table of versions -/

namespace Cache

/-- Each version in the table is what its key is read as. -/
def HoldsVersions : Table Version → Prop :=
  Table.Holds fun key v => Version.parse key.text key.options = .ok v

/-- Each range in the table is what its key is read as. -/
def HoldsRanges : Table Range → Prop :=
  Table.Holds fun key range => Range.parse key.text key.options = .ok range

theorem operandMemo_returns {text : String} {options : Options} {v : Version}
    (hv : Version.parse text options = .ok v) :
    Returns HoldsVersions (operandMemo text options v) v := by
  intro versions hversions
  have hget := hversions.get ⟨text, options⟩
  cases hfound : versions.get ⟨text, options⟩ with
  | mk found versions' =>
    rw [hfound] at hget
    cases found with
    | some known =>
      have hrun : (operandMemo text options v).run versions = (known, versions') := by
        rw [operandMemo, StateT.run_modifyGet, hfound]
        rfl
      have hknown : Version.parse text options = .ok known :=
        hversions.of_get ⟨text, options⟩ (by rw [hfound])
      rw [hrun]
      exact ⟨Except.ok.inj (hknown.symm.trans hv), hget⟩
    | none =>
      have hrun : (operandMemo text options v).run versions =
          (v, versions'.insert ⟨text, options⟩ v) := by
        rw [operandMemo, StateT.run_modifyGet, hfound]
        rfl
      rw [hrun]
      exact ⟨rfl, hget.insert hv⟩

theorem resolveM_returns {t : List Char} {o : Operand} (ho : WritesOperand t o)
    (options : Options) :
    Returns HoldsVersions (o.resolveM operandMemo options) (o.resolve options) := by
  rw [Operand.resolveM]
  cases hv : o.version? options with
  | none => exact .pure _
  | some v =>
    rw [Operand.resolve_eq hv]
    dsimp only
    split
    case isTrue hlength =>
      exact (operandMemo_returns (ho.parse_eq_ok hv hlength)).bind (.pure _)
    case isFalse => exact .pure _

theorem resolve_eq {versions : Table Version} (hversions : HoldsVersions versions)
    {t : List Char} {alternatives : Alternatives Operand}
    (ht : WritesAlternatives t alternatives) (options : Options) :
    (resolve versions alternatives options).1 = alternatives.map (Operand.resolve options) ∧
      HoldsVersions (resolve versions alternatives options).2 := by
  have hreturns : Returns HoldsVersions
      (alternatives.mapM (Operand.resolveM operandMemo options))
      (alternatives.map (Operand.resolve options)) := by
    refine .alternativesMapM fun segment hsegment x hx o ho => ?_
    obtain ⟨u, hu⟩ := ht.exists_of_mem_operands hsegment hx ho
    exact resolveM_returns hu options
  exact hreturns versions hversions

/-! ## Reading through a faithful cache -/

/-- Each entry of the cache is what its key is read as. -/
structure Faithful (cache : Cache) : Prop where
  versions : HoldsVersions cache.versions
  ranges : HoldsRanges cache.ranges

theorem faithful_empty (capacity : Nat) : (empty capacity).Faithful where
  versions := Table.holds_empty capacity
  ranges := Table.holds_empty capacity

theorem faithful_clear (cache : Cache) : cache.clear.Faithful where
  versions := .clear
  ranges := .clear

variable {cache : Cache}

/-- **A version text is read through a faithful cache as without one.** -/
theorem Faithful.parse (h : cache.Faithful) (text : String) (options : Options) :
    (cache.parse text options).1 = Version.parse text options ∧
      (cache.parse text options).2.Faithful := by
  have hversions : Table.Holds (fun key v => Version.parse key.text key.options = .ok v)
      cache.versions := h.versions
  obtain ⟨hresult, hafter⟩ := hversions.getOrInsert ⟨text, options⟩
  exact ⟨hresult, hafter, h.ranges⟩

/-- **A range text is read through a faithful cache as without one.** -/
theorem Faithful.parseRange (h : cache.Faithful) (text : String) (options : Options) :
    (cache.parseRange text options).1 = Range.parse text options ∧
      (cache.parseRange text options).2.Faithful := by
  have hget := h.ranges.get ⟨text, options⟩
  rw [Cache.parseRange]
  cases hfound : cache.ranges.get ⟨text, options⟩ with
  | mk found ranges =>
    rw [hfound] at hget
    cases found with
    | some range =>
      have hrange : Range.parse text options = .ok range :=
        h.ranges.of_get ⟨text, options⟩ (by rw [hfound])
      exact ⟨hrange.symm, h.versions, hget⟩
    | none =>
      cases hparse : Alternatives.parse text with
      | error e =>
        have hrange : Range.parse text options = .error e := by
          rw [Range.parse, hparse]
          rfl
        exact ⟨hrange.symm, h.versions, hget⟩
      | ok alternatives =>
        have ht := Alternatives.parse_eq_ok_iff.1 hparse
        obtain ⟨hresolved, hversions⟩ := resolve_eq h.versions ht options
        have hrange : Range.parse text options =
            .ok (.ofAlternatives options (resolve cache.versions alternatives options).1) := by
          rw [Range.parse, hparse, hresolved]
          rfl
        exact ⟨hrange.symm, hversions, hget.insert hrange⟩

end Cache
end SemanticVersioning
