import SemanticVersioning.Proofs.Engine.Counts

/-!
# What a failed request leaves behind

A text that cannot be read is counted as a miss by the table that was asked for it, and that is all it
leaves behind (`Engine.answer_of_failure`). No entry comes or leaves, and no other count changes, in
either table of the cache and in any other cache.

Two things could go wrong. A text that fails might be found in a table, so that no error is returned.
This cannot be, as in a store that a session has left behind all caches are faithful, and no error is
stored. And the text of a range might fail after some of its operands have been looked up. The whole
text is read before the first operand is looked up, so none is. This shows in the counts: each lookup
changes one of them (`Table.eq_nil_of_lookUp_eq_self`).
-/

namespace SemanticVersioning

variable {α ε : Type}

/-! ## Failures in tables -/

namespace Table

variable {table : Table α} {key : Key}

/-- A lookup that fails is a miss, and nothing is stored. -/
theorem getOrInsert_snd_of_eq_error {compute : Unit → Except ε α} {e : ε}
    (h : (table.getOrInsert key compute).1 = .error e) :
    (table.getOrInsert key compute).2 = table.missed := by
  rcases table.getOrInsert_cases key compute with ⟨a, -, hfound⟩ | ⟨e', hfailed⟩ | ⟨a, -, hstored⟩
  · rw [hfound] at h
    exact nomatch h
  · rw [hfailed]
  · rw [hstored] at h
    exact nomatch h

theorem get_snd_of_eq_none (h : (table.get key).1 = none) : (table.get key).2 = table.missed := by
  rw [get_fst] at h
  rw [get, h]
  rfl

/-- A table that is left as it was was not asked for anything. -/
theorem eq_nil_of_lookUp_eq_self {read : Key → Except ε α} {keys : List Key}
    (h : table.lookUp read keys = table) : keys = [] := by
  have hcounts := table.hits_add_misses_lookUp read keys
  rw [h] at hcounts
  exact List.length_eq_zero_iff.1 (Nat.left_eq_add.1 hcounts)

/-- A key that cannot be read has no value. -/
theorem Holds.valueAt?_eq_none {read : Key → Except ε α} {e : ε}
    (h : Holds (fun key a => read key = .ok a) table) (he : read key = .error e) :
    table.valueAt? key.place = none := by
  cases hvalue : table.valueAt? key.place with
  | none => rfl
  | some a => exact nomatch he.symm.trans (h key a hvalue)

end Table

/-! ## Failures in caches -/

namespace Cache

variable {cache : Cache} {text : String} {options : Options} {e : ParseError}

theorem parse_snd_of_eq_error (h : (cache.parse text options).1 = .error e) :
    (cache.parse text options).2 = { cache with versions := cache.versions.missed } := by
  have hlookup : (cache.versions.getOrInsert ⟨text, options⟩
      fun _ => Version.parse text options).1 = .error e := h
  exact congrArg (fun versions => { cache with versions })
    (Table.getOrInsert_snd_of_eq_error hlookup)

/-- The operands of a range text come into play when all of it has been read. -/
theorem parseRange_snd_of_eq_error (h : (cache.parseRange text options).1 = .error e) :
    (cache.parseRange text options).2 = { cache with ranges := cache.ranges.missed } := by
  rw [parseRange] at h ⊢
  cases hfound : cache.ranges.get ⟨text, options⟩ with
  | mk found ranges =>
    rw [hfound] at h
    cases found with
    | some range => simp at h
    | none =>
      have hmissed : (cache.ranges.get ⟨text, options⟩).2 = cache.ranges.missed :=
        Table.get_snd_of_eq_none (congrArg Prod.fst hfound)
      rw [hfound] at hmissed
      cases hparse : Alternatives.parse text with
      | error e' => exact congrArg (fun ranges => { cache with ranges }) hmissed
      | ok alternatives =>
        simp [hparse] at h

/-- A faithful cache has no version for a text that is none. -/
theorem Faithful.version_absent (h : cache.Faithful) (he : Version.parse text options = .error e) :
    cache.versions.valueAt? (Key.mk text options).place = none := by
  have hversions : Table.Holds (fun key v => key.readVersion = .ok v) cache.versions := h.versions
  exact hversions.valueAt?_eq_none he

/-- A faithful cache has no range for a text that is none. -/
theorem Faithful.range_absent (h : cache.Faithful) (he : Range.parse text options = .error e) :
    cache.ranges.valueAt? (Key.mk text options).place = none := by
  have hranges : Table.Holds (fun key range => key.readRange = .ok range) cache.ranges := h.ranges
  exact hranges.valueAt?_eq_none he

end Cache

/-! ## Failures in sessions -/

/-- A store that a session has left behind. -/
def Store.Reachable (store : Store) : Prop :=
  ∃ (capacities : List Nat) (steps : List Step),
    (Session.run steps (.ofCapacities capacities)).2 = store

theorem Store.faithful_of_reachable {store : Store} (h : store.Reachable) : store.Faithful := by
  obtain ⟨capacities, steps, rfl⟩ := h
  exact (Session.run_eq steps (faithful_ofCapacities capacities)).2

namespace Engine

variable {store : Store}

/-- What an engine does to the store by answering it does to its own cache. -/
theorem answer_snd_eq_revise (engine : Engine) {request : Request} {f : Cache → Cache}
    (h : ∀ cache ∈ store.caches, (cache.answer request).2 = f cache) :
    (engine.answer store request).2 = engine.revise store f := by
  have hcaches : (engine.answer store request).2.caches = (engine.revise store f).caches := by
    refine List.ext_getElem? fun index => ?_
    rw [getElem?_answer, getElem?_revise]
    split
    · exact Option.map_congr fun cache hcache => h cache (List.mem_of_getElem? hcache)
    · rfl
  exact congrArg Store.mk hcaches

/-- **A failed request leaves nothing behind but a miss.**  Let a session of any requests and clearings
have left a store of caches behind, and let an engine be asked to read a text, through one of these
caches or none. The engine answers with an error exactly if the text cannot be read, and then the text
is not stored in any cache. A version text that fails changes the store in one count only: the misses
of the table of versions of the cache that the engine uses. With a range text these are the misses of
its table of ranges, and the table of versions is not asked for any operand. -/
theorem answer_of_failure (h : store.Reachable) (engine : Engine) (text : String)
    (options : Options) (e : ParseError) :
    (((engine.answer store (.parse text options)).1 = .version (.error e) ↔
        Version.parse text options = .error e) ∧
      ((engine.answer store (.parse text options)).1 = .version (.error e) →
        (engine.answer store (.parse text options)).2 =
          engine.revise store (fun cache => { cache with versions := cache.versions.missed }) ∧
        ∀ cache ∈ store.caches, cache.versions.valueAt? (Key.mk text options).place = none)) ∧
    (((engine.answer store (.parseRange text options)).1 = .range (.error e) ↔
        Range.parse text options = .error e) ∧
      ((engine.answer store (.parseRange text options)).1 = .range (.error e) →
        (engine.answer store (.parseRange text options)).2 =
          engine.revise store (fun cache => { cache with ranges := cache.ranges.missed }) ∧
        ∀ cache ∈ store.caches, cache.ranges.valueAt? (Key.mk text options).place = none ∧
          ∀ keys, (cache.parseRange text options).2.versions =
            cache.versions.lookUp Key.readVersion keys → keys = [])) := by
  have hfaithful := Store.faithful_of_reachable h
  have hversion : (engine.answer store (.parse text options)).1 = .version (.error e) ↔
      Version.parse text options = .error e := by
    rw [(answer_eq hfaithful engine (.parse text options)).1, Request.answer,
      Reply.version.injEq]
  have hrange : (engine.answer store (.parseRange text options)).1 = .range (.error e) ↔
      Range.parse text options = .error e := by
    rw [(answer_eq hfaithful engine (.parseRange text options)).1, Request.answer,
      Reply.range.injEq]
  refine ⟨⟨hversion, fun hreply => ⟨?_, fun cache hcache => ?_⟩⟩,
    hrange, fun hreply => ⟨?_, fun cache hcache => ⟨?_, fun keys hkeys => ?_⟩⟩⟩
  · refine answer_snd_eq_revise engine fun cache hcache => ?_
    exact Cache.parse_snd_of_eq_error
      (((hfaithful cache hcache).parse text options).1.trans (hversion.1 hreply))
  · exact (hfaithful cache hcache).version_absent (hversion.1 hreply)
  · refine answer_snd_eq_revise engine fun cache hcache => ?_
    exact Cache.parseRange_snd_of_eq_error
      (((hfaithful cache hcache).parseRange text options).1.trans (hrange.1 hreply))
  · exact (hfaithful cache hcache).range_absent (hrange.1 hreply)
  · have hfailed := ((hfaithful cache hcache).parseRange text options).1.trans (hrange.1 hreply)
    rw [Cache.parseRange_snd_of_eq_error hfailed] at hkeys
    exact Table.eq_nil_of_lookUp_eq_self hkeys.symm

/-- The cache has room for one version. The two complete operands in front of the place where the text
fails do not take the place of the one that it has. -/
theorem answer_of_failure_operands : ∃ (store : Store) (cache : Cache),
    (Session.run [.ask (.sharing 0) (.parse "1.0.0" {})] (.ofCapacities [1])).2 = store ∧
    store.caches[0]? = some cache ∧
    ((Engine.sharing 0).answer store (.parseRange "2.0.0 || >=3.0.0 <" {})).2.caches[0]? =
      some { cache with ranges := cache.ranges.missed } := by
  let text := "2.0.0 || >=3.0.0 <"
  let store := (Session.run [.ask (.sharing 0) (.parse "1.0.0" {})] (.ofCapacities [1])).2
  have hstore : store.Reachable := ⟨_, _, rfl⟩
  have hfails : (Range.parse text {}).isOk = false := by decide +kernel
  obtain ⟨e, he⟩ : ∃ e, Range.parse text {} = .error e := by
    cases hparse : Range.parse text {} with
    | error e => exact ⟨e, rfl⟩
    | ok range => exact nomatch hparse ▸ hfails
  obtain ⟨-, hreply, hafter⟩ := answer_of_failure hstore (.sharing 0) text {} e
  obtain ⟨hrevised, -⟩ := hafter (hreply.2 he)
  refine ⟨store, _, rfl, rfl, ?_⟩
  rw [hrevised, getElem?_revise]
  rfl

end Engine
end SemanticVersioning
