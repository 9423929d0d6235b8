import Mathlib.Data.List.Basic
import SemanticVersioning.Proofs.Cache.Balance
import SemanticVersioning.Proofs.Engine.Session

/-!
# What a cache is asked for

Requests do not name the keys that are looked up for them. This module says which these are, as
lists of keys for each of the two tables (`Cache.versionKeys`, `Request.rangeKeys`). It proves that
a request leaves a faithful cache as these lookups leave it, one after the other
(`Cache.Faithful.asks_answer`).

* A version text is looked up as it is, with its options. A version that is given as such is not
  looked up.
* A range text is looked up likewise. If it is not found, and it is the text of a range, then its
  complete operands are looked up as versions, in the order of the text (`Alternatives.keys`).
* The second text of a request is looked up if the first one could be read.

## Operands under any memo

That each complete operand is looked up once, and in which order, has nothing to do with tables. It
is proved for every memo that the operands are resolved through, whatever its state is
(`Alternatives.run_mapM_resolveM`). For the table of versions it remains that to offer the version
of an operand is the same as to read its text, and that is `WritesOperand.parse_eq_ok`.
-/

namespace SemanticVersioning

open Text

variable {α β ε σ κ : Type}

/-! ## Actions by the calls they make -/

/-- What an action does to the state is what some calls do to it, one after the other. -/
def Calls (call : σ → κ → σ) (action : StateM σ α) (calls : List κ) : Prop :=
  ∀ s, (action.run s).2 = calls.foldl call s

namespace Calls

variable {call : σ → κ → σ}

theorem pure (a : α) : Calls call (Pure.pure a) [] :=
  fun _ => rfl

theorem bind {action : StateM σ α} {next : α → StateM σ β} {calls more : List κ}
    (h : Calls call action calls) (hnext : ∀ a, Calls call (next a) more) :
    Calls call (action >>= next) (calls ++ more) := by
  intro s
  rw [List.foldl_append, ← h s]
  exact hnext (action.run s).1 (action.run s).2

theorem bind_pure {action : StateM σ α} {calls : List κ} (h : Calls call action calls)
    (f : α → β) : Calls call (action >>= fun a => Pure.pure (f a)) calls := by
  have hbind := h.bind fun a => pure (f a)
  rwa [List.append_nil] at hbind

theorem listMapM {f : α → StateM σ β} {calls : α → List κ} (h : ∀ a, Calls call (f a) (calls a))
    (as : List α) : Calls call (as.mapM f) (as.flatMap calls) := by
  induction as with
  | nil =>
    rw [List.mapM_nil]
    exact pure []
  | cons a as ih =>
    rw [List.mapM_cons, List.flatMap_cons]
    exact (h a).bind fun b => ih.bind_pure (b :: ·)

theorem termMapM {f : α → StateM σ β} {calls : α → List κ} (h : ∀ a, Calls call (f a) (calls a))
    (t : Term α) : Calls call (t.mapM f) (t.operands.flatMap calls) := by
  have hone : ∀ a, [a].flatMap calls = calls a := fun a => List.flatMap_singleton _ _
  cases t with
  | compare op a => exact (hone a).symm ▸ (h a).bind_pure _
  | tilde a => exact (hone a).symm ▸ (h a).bind_pure _
  | caret a => exact (hone a).symm ▸ (h a).bind_pure _
  | hyphen a b =>
    rw [Term.operands, List.flatMap_cons, hone]
    exact (h a).bind fun lower => (h b).bind_pure _

theorem alternativesMapM {f : α → StateM σ β} {calls : α → List κ}
    (h : ∀ a, Calls call (f a) (calls a)) (alternatives : Alternatives α) :
    Calls call (alternatives.mapM f) (alternatives.operands.flatMap calls) := by
  have hsegments : Calls call
      (alternatives.segments.mapM fun segment => segment.mapM (Term.mapM f))
      (alternatives.segments.flatMap fun segment =>
        segment.flatMap fun t => t.operands.flatMap calls) :=
    listMapM (fun segment => listMapM (termMapM h) segment) _
  rw [Alternatives.operands, List.flatMap_assoc, ← List.flatMap_id, List.flatMap_assoc]
  exact hsegments.bind_pure Alternatives.mk

end Calls

/-! ## The operands that are looked up -/

/-- The version that a key is read as. -/
def Key.readVersion (key : Key) : Except ParseError Version :=
  Version.parse key.text key.options

/-- The range that a key is read as. -/
def Key.readRange (key : Key) : Except ParseError Range :=
  Range.parse key.text key.options

/-- What an operand offers to a memo: its version, under the key of its text and the loose options,
if it is complete and its text is not too long for a version. -/
def Operand.offer? (options : Options) (operand : Operand) : Option (Key × Version) :=
  if utf8Length operand.text.toList ≤ maxLength then
    (operand.version? options).map fun v => (⟨operand.text, options.loosely⟩, v)
  else
    none

/-- The key under which an operand is looked up: its text with the loose options, if it is complete
and its text is not too long for a version. -/
def Operand.key? (options : Options) (operand : Operand) : Option Key :=
  match operand.extent with
  | .full _ =>
      if utf8Length operand.text.toList ≤ maxLength then some ⟨operand.text, options.loosely⟩
      else none
  | .any | .major _ | .minor _ _ => none

theorem Operand.map_offer? (options : Options) (o : Operand) :
    (o.offer? options).map Prod.fst = o.key? options := by
  rw [offer?, key?, version?]
  cases o.extent with
  | full v => by_cases hlength : utf8Length o.text.toList ≤ maxLength <;> simp [hlength]
  | any => simp
  | major => simp
  | minor => simp

namespace Alternatives

/-- What the operands of a range text offer, in the order of the text. -/
def offers (options : Options) (alternatives : Alternatives Operand) : List (Key × Version) :=
  alternatives.operands.filterMap (Operand.offer? options)

/-- The keys under which the operands of a range text are looked up, in the order of the text. -/
def keys (options : Options) (alternatives : Alternatives Operand) : List Key :=
  alternatives.operands.filterMap (Operand.key? options)

theorem map_offers (options : Options) (alternatives : Alternatives Operand) :
    (alternatives.offers options).map Prod.fst = alternatives.keys options := by
  rw [offers, keys, List.map_filterMap]
  simp only [Operand.map_offer?]

end Alternatives

/-- An operand calls the memo once or not at all. -/
theorem Operand.calls_resolveM (memo : String → Options → Version → StateM σ Version)
    (options : Options) (o : Operand) :
    Calls (fun s offer => ((memo offer.1.text offer.1.options offer.2).run s).2)
      (o.resolveM memo options) (o.offer? options).toList := by
  rw [resolveM, offer?]
  cases hv : o.version? options with
  | none =>
    simp only [Option.map_none, ite_self, Option.toList_none]
    exact .pure _
  | some v =>
    dsimp only
    split
    case isTrue => exact Calls.bind_pure (fun _ => rfl) _
    case isFalse => exact .pure _

/-- **Whatever the operands of a range text are resolved through is asked for each complete operand
once, in the order of the text.** -/
theorem Alternatives.run_mapM_resolveM (memo : String → Options → Version → StateM σ Version)
    (options : Options) (alternatives : Alternatives Operand) (s : σ) :
    ((alternatives.mapM (Operand.resolveM memo options)).run s).2 =
      (alternatives.offers options).foldl
        (fun s offer => ((memo offer.1.text offer.1.options offer.2).run s).2) s := by
  have hcalls := Calls.alternativesMapM (Operand.calls_resolveM memo options) alternatives
  rw [offers, List.filterMap_eq_flatMap_toList]
  exact hcalls s

/-- The version that a written operand offers is what its key is read as. -/
theorem WritesOperand.readVersion_offer {t : List Char} {o : Operand} (h : WritesOperand t o)
    {options : Options} {offer : Key × Version} (hoffer : o.offer? options = some offer) :
    offer.1.readVersion = .ok offer.2 := by
  rw [Operand.offer?] at hoffer
  split at hoffer
  case isTrue hlength =>
    obtain ⟨v, hv, rfl⟩ := Option.map_eq_some_iff.1 hoffer
    exact h.parse_eq_ok hv hlength
  case isFalse => exact absurd hoffer (Option.some_ne_none offer).symm

namespace Cache

/-- To offer a table the version that a key is read as is to look the key up. -/
theorem operandMemo_run_snd {key : Key} {v : Version} (h : key.readVersion = .ok v)
    (versions : Table Version) :
    ((operandMemo key.text key.options v).run versions).2 =
      versions.afterUse Key.readVersion (.lookup key) := by
  rw [Table.afterUse, Table.getOrInsert, h, operandMemo, StateT.run_modifyGet]
  cases versions.get key with
  | mk found versions' => cases found <;> rfl

/-- **The operands of a range text are looked up one after the other.** -/
theorem resolve_snd {t : List Char} {alternatives : Alternatives Operand}
    (ht : WritesAlternatives t alternatives) (options : Options) (versions : Table Version) :
    (resolve versions alternatives options).2 =
      versions.lookUp Key.readVersion (alternatives.keys options) := by
  have hoffers : ∀ offer ∈ alternatives.offers options, offer.1.readVersion = .ok offer.2 := by
    intro offer hoffer
    obtain ⟨o, ho, hoffer⟩ := List.mem_filterMap.1 hoffer
    obtain ⟨x, hx, ho⟩ := List.mem_flatMap.1 ho
    obtain ⟨segment, hsegment, hx⟩ := List.mem_flatten.1 hx
    obtain ⟨u, hu⟩ := ht.exists_of_mem_operands hsegment hx ho
    exact hu.readVersion_offer hoffer
  rw [resolve, Alternatives.run_mapM_resolveM, ← Alternatives.map_offers, Table.lookUp,
    Table.afterUses, List.foldl_map, List.foldl_map]
  exact List.foldl_ext _ _ _ fun versions offer hoffer =>
    operandMemo_run_snd (hoffers offer hoffer) versions

end Cache

/-! ## The lookups for a request -/

/-- The keys under which an argument is looked up: one if it is a text, none if it is a version. -/
def VersionArgument.keys (options : Options) : VersionArgument → List Key
  | .text t => [⟨t, options⟩]
  | .version _ => []

/-- The keys of ranges that are looked up for a request. -/
def Request.rangeKeys : Request → List Key
  | .parse _ _ => []
  | .parseRange text options => [⟨text, options⟩]
  | .compare _ _ _ => []
  | .satisfies _ rangeText options => [⟨rangeText, options⟩]

namespace Cache

/-- The keys of versions that are looked up for a range text. There are none if the cache has the
range, or if the text is not that of a range. -/
def operandKeys (cache : Cache) (text : String) (options : Options) : List Key :=
  match cache.ranges.valueAt? (Key.mk text options).place with
  | some _ => []
  | none =>
      match Alternatives.parse text with
      | .error _ => []
      | .ok alternatives => alternatives.keys options

/-- The keys of versions that are looked up for a request. The second text of a request has to wait
for the first one to be read. -/
def versionKeys (cache : Cache) : Request → List Key
  | .parse text options => [⟨text, options⟩]
  | .parseRange text options => cache.operandKeys text options
  | .compare a b options =>
      a.keys options ++ if (a.resolve options).isOk then b.keys options else []
  | .satisfies argument rangeText options =>
      cache.operandKeys rangeText options ++
        if (Range.parse rangeText options).isOk then argument.keys options else []

/-- One cache is left of another by lookups in its two tables. -/
structure Asks (cache after : Cache) (versionKeys rangeKeys : List Key) : Prop where
  versions : after.versions = cache.versions.lookUp Key.readVersion versionKeys
  ranges : after.ranges = cache.ranges.lookUp Key.readRange rangeKeys

variable {cache mid after : Cache} {versionKeys rangeKeys more : List Key}

theorem Asks.refl (cache : Cache) : Asks cache cache [] [] :=
  ⟨rfl, rfl⟩

/-- Versions are looked up after everything else. -/
theorem Asks.trans (h : Asks cache mid versionKeys rangeKeys) (hmore : Asks mid after more []) :
    Asks cache after (versionKeys ++ more) rangeKeys := by
  refine ⟨?_, hmore.ranges.trans h.ranges⟩
  rw [hmore.versions, h.versions, Table.lookUp_append]

theorem asks_parse (cache : Cache) (text : String) (options : Options) :
    Asks cache (cache.parse text options).2 [⟨text, options⟩] [] :=
  ⟨rfl, rfl⟩

theorem asks_resolveArgument (cache : Cache) (argument : VersionArgument) (options : Options) :
    Asks cache (cache.resolveArgument argument options).2 (argument.keys options) [] := by
  cases argument with
  | text t => exact cache.asks_parse t options
  | version v => exact .refl cache

theorem operandKeys_eq_keys {text : String} {options : Options}
    {alternatives : Alternatives Operand}
    (hmissing : cache.ranges.valueAt? (Key.mk text options).place = none)
    (ht : WritesAlternatives (trim text.toList) alternatives) :
    cache.operandKeys text options = alternatives.keys options := by
  rw [operandKeys, hmissing, Alternatives.parse_eq_ok_iff.2 ht]

/-- A range text is looked up once, and its operands only if it was not found and is the text of a
range. -/
theorem Faithful.asks_parseRange (h : cache.Faithful) (text : String) (options : Options) :
    Asks cache (cache.parseRange text options).2 (cache.operandKeys text options)
      [⟨text, options⟩] := by
  have hresult := (h.parseRange text options).1
  have hlookup : cache.ranges.lookUp Key.readRange [⟨text, options⟩] =
      (cache.ranges.getOrInsert ⟨text, options⟩ fun _ => Range.parse text options).2 := rfl
  rw [Cache.parseRange] at hresult ⊢
  rw [operandKeys, ← Table.get_fst]
  cases hfound : cache.ranges.get ⟨text, options⟩ with
  | mk found ranges =>
    rw [Table.getOrInsert, hfound] at hlookup
    rw [hfound] at hresult
    cases found with
    | some range => exact ⟨rfl, hlookup.symm⟩
    | none =>
      cases hread : Alternatives.parse text with
      | error e =>
        rw [hread] at hresult
        rw [← hresult] at hlookup
        exact ⟨rfl, hlookup.symm⟩
      | ok alternatives =>
        rw [hread] at hresult
        rw [← hresult] at hlookup
        have ht := Alternatives.parse_eq_ok_iff.1 hread
        exact ⟨resolve_snd ht options cache.versions, hlookup.symm⟩

/-- Two readings one after the other, of which the second looks up versions only. -/
theorem Asks.andThen {first : Cache → Except ε α × Cache} {next : α → Cache → Except ε β × Cache}
    {result : Except ε α} (hresult : (first cache).1 = result)
    (hfirst : Asks cache (first cache).2 versionKeys rangeKeys)
    (hnext : ∀ a cache, Asks cache (next a cache).2 more []) :
    Asks cache (Cache.andThen first next cache).2
      (versionKeys ++ if result.isOk then more else []) rangeKeys := by
  rw [Cache.andThen, ← hresult]
  cases hread : first cache with
  | mk outcome cache' =>
    rw [hread] at hfirst
    cases outcome with
    | error e => exact hfirst.trans (.refl cache')
    | ok a => exact hfirst.trans (hnext a cache')

/-- What an argument is needed for makes no difference to the lookup. -/
theorem asks_argument (argument : VersionArgument) (options : Options) (f : Version → α)
    (cache : Cache) :
    Asks cache (Cache.andThen (·.resolveArgument argument options)
      (fun v cache => ((.ok (f v) : Except ParseError α), cache)) cache).2
      (argument.keys options) [] := by
  have hasks := cache.asks_resolveArgument argument options
  rw [Cache.andThen]
  cases hread : cache.resolveArgument argument options with
  | mk outcome cache' =>
    rw [hread] at hasks
    cases outcome with
    | error e => exact hasks
    | ok v => exact hasks

/-- **A faithful cache is left by a request as the lookups for it leave it.** -/
theorem Faithful.asks_answer (h : cache.Faithful) (request : Request) :
    Asks cache (cache.answer request).2 (cache.versionKeys request) request.rangeKeys := by
  cases request with
  | parse text options => exact cache.asks_parse text options
  | parseRange text options => exact h.asks_parseRange text options
  | compare a b options =>
    have hfirst := cache.asks_resolveArgument a options
    show Asks cache (cache.compareArguments a b options).2 _ []
    rw [compareArguments_eq]
    exact .andThen (h.resolveArgument a options).1 hfirst fun v => asks_argument b options _
  | satisfies argument rangeText options =>
    show Asks cache (cache.satisfiesText argument rangeText options).2 _ [⟨rangeText, options⟩]
    rw [satisfiesText_eq]
    exact .andThen (h.parseRange rangeText options).1 (h.asks_parseRange rangeText options)
      fun range => asks_argument argument options _

end Cache
end SemanticVersioning
