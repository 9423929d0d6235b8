import Mathlib.Control.Monad.Basic
import SemanticVersioning.Proofs.Engine.Lookups

/-!
# The counts of a cache over a session

The steps of a session that concern a cache are those put to an engine that uses it
(`Session.stepsOf`), and they alone make the cache what it is afterwards (`Session.getElem?_run`).
What a step does with the two tables of the cache is known before it is taken. The table of ranges
is asked for the range text of the request. What the table of versions is asked for depends on the
session too, but only through the ranges that the cache has.

So each table has gone through a run of uses since it was new, and such runs balance
(`Ledger.balanced_run`). This is `Session.counts_balance`. It is about whole sessions, and any
beginning of a session is one.
-/

namespace SemanticVersioning

open Text

/-! ## One cache among several -/

namespace Engine

/-- An engine that answers changes the cache it uses and no other. -/
theorem getElem?_answer (engine : Engine) (store : Store) (request : Request) (index : Nat) :
    (engine.answer store request).2.caches[index]? =
      if engine.cache? = some index then
        store.caches[index]?.map fun cache => (cache.answer request).2
      else store.caches[index]? := by
  rw [answer]
  cases engine.cache? with
  | none => rfl
  | some i =>
    dsimp only
    by_cases hindex : i = index
    · subst hindex
      rw [if_pos rfl]
      cases hcache : store.caches[i]? with
      | none => exact hcache
      | some cache =>
        have hlength : i < store.caches.length := (List.getElem?_eq_some_iff.1 hcache).1
        exact List.getElem?_set_self hlength
    · rw [if_neg fun hsome => hindex (Option.some.inj hsome)]
      cases store.caches[i]? with
      | none => rfl
      | some cache => exact List.getElem?_set_ne hindex

/-- The store after the cache that an engine uses has been changed. -/
def revise (engine : Engine) (store : Store) (f : Cache → Cache) : Store :=
  match engine.cache? with
  | none => store
  | some index => { caches := store.caches.modify index f }

theorem getElem?_revise (engine : Engine) (store : Store) (f : Cache → Cache) (index : Nat) :
    (engine.revise store f).caches[index]? =
      if engine.cache? = some index then store.caches[index]?.map f
      else store.caches[index]? := by
  rw [revise]
  cases engine.cache? with
  | none => rfl
  | some i =>
    dsimp only
    rw [List.getElem?_modify]
    by_cases hindex : i = index
    · simp only [hindex, if_true, Option.map_eq_map]
    · simp only [hindex, Option.some.injEq, if_false, id_map']

/-- An engine that clears its cache changes no other. -/
theorem getElem?_clear (engine : Engine) (store : Store) (index : Nat) :
    (engine.clear store).caches[index]? =
      if engine.cache? = some index then store.caches[index]?.map Cache.clear
      else store.caches[index]? :=
  engine.getElem?_revise store Cache.clear index

end Engine

namespace Step

/-- The engine of a step. -/
def engine : Step → Engine
  | ask engine _ => engine
  | clear engine => engine

/-- Whether a step is put to an engine that uses the cache of an index. -/
def concerns (index : Nat) (step : Step) : Bool :=
  step.engine.cache? = some index

/-- A cache after a step that uses it. -/
def visit (cache : Cache) : Step → Cache
  | ask _ request => (cache.answer request).2
  | clear _ => cache.clear

/-- What a step does with the table of versions of a cache that it uses. -/
def versionUses (cache : Cache) : Step → List Table.Use
  | ask _ request => (cache.versionKeys request).map .lookup
  | clear _ => [.clear]

/-- What a step does with the table of ranges of a cache that it uses. -/
def rangeUses : Step → List Table.Use
  | ask _ request => request.rangeKeys.map .lookup
  | clear _ => [.clear]

/-- A step changes the caches that it concerns and no others. -/
theorem getElem?_perform (step : Step) (store : Store) (index : Nat) :
    (step.perform store).2.caches[index]? =
      if step.concerns index then store.caches[index]?.map (visit · step)
      else store.caches[index]? := by
  simp only [concerns, decide_eq_true_eq]
  cases step with
  | ask engine request => exact engine.getElem?_answer store request index
  | clear engine => exact engine.getElem?_clear store index

/-- A step leaves a faithful cache as its uses of the tables leave it. -/
theorem visit_eq {cache : Cache} (h : cache.Faithful) (step : Step) :
    (step.visit cache).Faithful ∧
      (step.visit cache).versions =
        cache.versions.afterUses Key.readVersion (step.versionUses cache) ∧
      (step.visit cache).ranges = cache.ranges.afterUses Key.readRange step.rangeUses := by
  cases step with
  | ask engine request =>
    have hasks := h.asks_answer request
    exact ⟨(h.answer request).2, hasks.versions, hasks.ranges⟩
  | clear engine => exact ⟨Cache.faithful_clear cache, rfl, rfl⟩

end Step

namespace Session

/-- The steps of a session that concern the cache of an index. -/
def stepsOf (index : Nat) (steps : List Step) : List Step :=
  steps.filter (Step.concerns index)

/-- What steps do with the table of versions of the cache that they use. -/
def versionUses : List Step → Cache → List Table.Use
  | [], _ => []
  | step :: steps, cache => step.versionUses cache ++ versionUses steps (step.visit cache)

/-- What steps do with the table of ranges of the cache that they use. -/
def rangeUses (steps : List Step) : List Table.Use :=
  steps.flatMap Step.rangeUses

/-- A cache goes through the steps that concern it. -/
theorem getElem?_run (steps : List Step) (store : Store) (index : Nat) :
    (run steps store).2.caches[index]? =
      store.caches[index]?.map fun cache => (stepsOf index steps).foldl Step.visit cache := by
  induction steps generalizing store with
  | nil => exact Option.map_id'.symm
  | cons step steps ih =>
    have hrun : (run (step :: steps) store).2 = (run steps (step.perform store).2).2 := rfl
    rw [hrun, ih, step.getElem?_perform, stepsOf, stepsOf, List.filter_cons]
    split
    · rw [Option.map_map]
      rfl
    · rfl

/-- The tables of a faithful cache go through the uses that the steps make of them. -/
theorem foldl_visit_eq (steps : List Step) {cache : Cache} (h : cache.Faithful) :
    (steps.foldl Step.visit cache).Faithful ∧
      (steps.foldl Step.visit cache).versions =
        cache.versions.afterUses Key.readVersion (versionUses steps cache) ∧
      (steps.foldl Step.visit cache).ranges =
        cache.ranges.afterUses Key.readRange (rangeUses steps) := by
  induction steps generalizing cache with
  | nil => exact ⟨h, rfl, rfl⟩
  | cons step steps ih =>
    obtain ⟨hstep, hversions, hranges⟩ := step.visit_eq h
    obtain ⟨hsteps, hmoreVersions, hmoreRanges⟩ := ih hstep
    refine ⟨hsteps, ?_, ?_⟩
    · rw [versionUses, Table.afterUses_append, ← hversions]
      exact hmoreVersions
    · rw [rangeUses, List.flatMap_cons, Table.afterUses_append, ← hranges]
      exact hmoreRanges

/-- **The counts of a cache add up.**  Let the cache of an index be new, of any capacity, at the
start of a session. Afterwards its two tables are what the uses made of them, which the steps that
concern the cache determine. Every lookup among them was counted, and the counts of both tables
balance.

If then a range text is read that the cache does not have, the table of versions is asked for each
complete operand that is not too long, once, in the order of the text, and for nothing else. -/
theorem counts_balance (capacities : List Nat) (steps : List Step) {index capacity : Nat}
    (hcapacity : capacities[index]? = some capacity) :
    ∃ (cache : Cache) (versions : Ledger Version) (ranges : Ledger Range),
      (run steps (.ofCapacities capacities)).2.caches[index]? = some cache ∧
      (versions = (Ledger.new capacity).run Key.readVersion
          (versionUses (stepsOf index steps) (.empty capacity)) ∧
        ranges = (Ledger.new capacity).run Key.readRange (rangeUses (stepsOf index steps))) ∧
      (cache.versions = versions.table ∧ versions.Balanced capacity ∧ versions.lookups =
        (versionUses (stepsOf index steps) (.empty capacity)).countP Table.Use.isLookup) ∧
      (cache.ranges = ranges.table ∧ ranges.Balanced capacity ∧ ranges.lookups =
        (rangeUses (stepsOf index steps)).countP Table.Use.isLookup) ∧
      ∀ (text : String) (options : Options) (range : Range),
        (cache.ranges.get ⟨text, options⟩).1 = none →
        (cache.parseRange text options).1 = .ok range →
        ∃ (alternatives : Alternatives Operand) (after : Table Version),
          WritesAlternatives (trim text.toList) alternatives ∧
          (alternatives.operands.flatMap fun o => o.text.toList).Sublist (trim text.toList) ∧
          (cache.parseRange text options).2.versions = after ∧
          after = cache.versions.lookUp Key.readVersion (alternatives.keys options) ∧
          after.statistics.hits + after.statistics.misses =
            cache.versions.statistics.hits + cache.versions.statistics.misses +
              (alternatives.keys options).length := by
  have hempty : (Cache.empty capacity).Faithful := Cache.faithful_empty capacity
  obtain ⟨hfaithful, hversions, hranges⟩ := foldl_visit_eq (stepsOf index steps) hempty
  have hcache : (run steps (.ofCapacities capacities)).2.caches[index]? =
      some ((stepsOf index steps).foldl Step.visit (.empty capacity)) := by
    rw [getElem?_run, Store.ofCapacities, List.getElem?_map, hcapacity]
    rfl
  refine ⟨_, _, _, hcache, ⟨rfl, rfl⟩, ⟨?_, Ledger.balanced_run _ _ _, ?_⟩,
    ⟨?_, Ledger.balanced_run _ _ _, ?_⟩, fun text options range hmissing hread => ?_⟩
  · rw [hversions, Ledger.table_run]
    rfl
  · rw [Ledger.lookups_run]
    exact Nat.zero_add _
  · rw [hranges, Ledger.table_run]
    rfl
  · rw [Ledger.lookups_run]
    exact Nat.zero_add _
  · have hrange : Range.parse text options = .ok range :=
      (hfaithful.parseRange text options).1.symm.trans hread
    obtain ⟨alternatives, ht, -⟩ := Range.parse_eq_ok_iff.1 hrange
    have hasks := hfaithful.asks_parseRange text options
    rw [Table.get_fst] at hmissing
    refine ⟨alternatives, _, ht, ht.sublist_operands, rfl, ?_, ?_⟩
    · rw [hasks.versions, Cache.operandKeys_eq_keys hmissing ht]
    · rw [hasks.versions, Cache.operandKeys_eq_keys hmissing ht, Table.hits_add_misses_lookUp]

/-- Three complete operands, one of them written twice, and one that is not complete: three lookups
of versions for one of a range. -/
theorem counts_balance_operands :
    ∃ cache : Cache,
      (run [.ask (.sharing 0) (.parseRange "1.2.3 - 2.0.0 || >=1.2.3 <3.x" {}),
        .clear (.sharing 0)] (.ofCapacities [1])).2.caches[0]? = some cache ∧
      cache.versions.statistics.hits + cache.versions.statistics.misses = 3 ∧
      cache.ranges.statistics.hits + cache.ranges.statistics.misses = 1 := by
  have hkeys : (Cache.empty 1).operandKeys "1.2.3 - 2.0.0 || >=1.2.3 <3.x" {} =
      [⟨"1.2.3", { loose := true }⟩, ⟨"2.0.0", { loose := true }⟩,
        ⟨"1.2.3", { loose := true }⟩] := by
    have hmissing : (Cache.empty 1).ranges.valueAt?
        (Key.mk "1.2.3 - 2.0.0 || >=1.2.3 <3.x" {}).place = none := Table.valueAt?_empty 1 _
    rw [Cache.operandKeys, hmissing]
    decide +kernel
  have hcapacity : [1][0]? = some 1 := rfl
  obtain ⟨cache, versions, ranges, hcache, -, ⟨hversions, hbalanced, hlookups⟩,
    ⟨hranges, hbalanced', hlookups'⟩, -⟩ := counts_balance [1]
      [.ask (.sharing 0) (.parseRange "1.2.3 - 2.0.0 || >=1.2.3 <3.x" {}), .clear (.sharing 0)]
      hcapacity
  have huses : versionUses (stepsOf 0
      [.ask (.sharing 0) (.parseRange "1.2.3 - 2.0.0 || >=1.2.3 <3.x" {}), .clear (.sharing 0)])
      (.empty 1) =
        ((Cache.empty 1).operandKeys "1.2.3 - 2.0.0 || >=1.2.3 <3.x" {}).map .lookup ++
          [.clear] := rfl
  refine ⟨cache, hcache, ?_, ?_⟩
  · rw [hversions, hbalanced.lookups_eq, hlookups, huses, hkeys]
    rfl
  · rw [hranges, hbalanced'.lookups_eq, hlookups']
    rfl

end Session
end SemanticVersioning
