import SemanticVersioning.Engine
import SemanticVersioning.Proofs.Cache.Faithful

/-!
# Sessions, and that no cache shows in them

A session is a sequence of steps over a store of caches. A step puts a request to an engine, or
clears the cache of an engine. Which engines share a cache, use one of their own or none at all is
in the engines that the steps name, and the steps come in any order. A comparison and a question of
admission read two texts through one cache, one after the other (`Cache.andThen`).

The invariant of a session is that all caches are faithful (`Store.Faithful`). New caches are empty,
and an engine that answers or clears changes one cache, which it leaves faithful
(`Step.perform_eq`). So each reply is the one that reading from scratch gives, and
`Session.replies_eq_uncached` follows by induction on the steps.
-/

namespace SemanticVersioning

/-! ## Requests to a faithful cache -/

namespace Cache

variable {cache : Cache}

theorem Faithful.resolveArgument (h : cache.Faithful) (argument : VersionArgument)
    (options : Options) :
    (cache.resolveArgument argument options).1 = argument.resolve options ∧
      (cache.resolveArgument argument options).2.Faithful := by
  cases argument with
  | text t => exact h.parse t options
  | version v => exact ⟨rfl, h⟩

/-- Two readings through one cache, of which the second takes place if the first succeeds. -/
def andThen {α β ε : Type} (first : Cache → Except ε α × Cache)
    (next : α → Cache → Except ε β × Cache) (cache : Cache) : Except ε β × Cache :=
  match first cache with
  | (.error e, cache) => (.error e, cache)
  | (.ok a, cache) => next a cache

theorem Faithful.andThen {α β ε : Type} {first : Cache → Except ε α × Cache}
    {next : α → Cache → Except ε β × Cache} {result : Except ε α} {results : α → Except ε β}
    (hfirst : (first cache).1 = result ∧ (first cache).2.Faithful)
    (hnext : ∀ (a : α) {cache : Cache}, cache.Faithful →
      (next a cache).1 = results a ∧ (next a cache).2.Faithful) :
    (Cache.andThen first next cache).1 = result.bind results ∧
      (Cache.andThen first next cache).2.Faithful := by
  obtain ⟨hresult, hafter⟩ := hfirst
  rw [Cache.andThen, ← hresult]
  cases hread : first cache with
  | mk outcome cache' =>
    rw [hread] at hafter
    cases outcome with
    | error e => exact ⟨rfl, hafter⟩
    | ok a => exact hnext a hafter

theorem compareArguments_eq (cache : Cache) (a b : VersionArgument) (options : Options) :
    cache.compareArguments a b options =
      andThen (·.resolveArgument a options) (fun v =>
        andThen (·.resolveArgument b options) fun w cache => (.ok (compare v w), cache)) cache := by
  unfold Cache.compareArguments andThen
  dsimp only
  cases cache.resolveArgument a options with
  | mk result cache' =>
    cases result with
    | error e => rfl
    | ok v =>
      dsimp only
      cases cache'.resolveArgument b options with
      | mk result cache'' => cases result <;> rfl

theorem satisfiesText_eq (cache : Cache) (argument : VersionArgument) (rangeText : String)
    (options : Options) : cache.satisfiesText argument rangeText options =
      andThen (·.parseRange rangeText options) (fun range =>
        andThen (·.resolveArgument argument options) fun v cache => (.ok (range.admits v), cache))
        cache := by
  unfold Cache.satisfiesText andThen
  dsimp only
  cases cache.parseRange rangeText options with
  | mk result cache' =>
    cases result with
    | error e => rfl
    | ok range =>
      dsimp only
      cases cache'.resolveArgument argument options with
      | mk result cache'' => cases result <;> rfl

theorem Faithful.compareArguments (h : cache.Faithful) (a b : VersionArgument)
    (options : Options) :
    (cache.compareArguments a b options).1 = SemanticVersioning.compareArguments a b options ∧
      (cache.compareArguments a b options).2.Faithful := by
  rw [compareArguments_eq]
  refine Faithful.andThen (h.resolveArgument a options) fun v cache h => ?_
  exact Faithful.andThen (h.resolveArgument b options) fun w cache h => ⟨rfl, h⟩

theorem Faithful.satisfiesText (h : cache.Faithful) (argument : VersionArgument)
    (rangeText : String) (options : Options) :
    (cache.satisfiesText argument rangeText options).1 =
        SemanticVersioning.satisfiesText argument rangeText options ∧
      (cache.satisfiesText argument rangeText options).2.Faithful := by
  rw [satisfiesText_eq]
  refine Faithful.andThen (h.parseRange rangeText options) fun range cache h => ?_
  exact Faithful.andThen (h.resolveArgument argument options) fun v cache h => ⟨rfl, h⟩

/-- **A faithful cache answers each request as it is answered from scratch**, and stays
faithful. -/
theorem Faithful.answer (h : cache.Faithful) (request : Request) :
    (cache.answer request).1 = request.answer ∧ (cache.answer request).2.Faithful := by
  cases request with
  | parse text options =>
    obtain ⟨hreply, hafter⟩ := h.parse text options
    exact ⟨congrArg Reply.version hreply, hafter⟩
  | parseRange text options =>
    obtain ⟨hreply, hafter⟩ := h.parseRange text options
    exact ⟨congrArg Reply.range hreply, hafter⟩
  | compare a b options =>
    obtain ⟨hreply, hafter⟩ := h.compareArguments a b options
    exact ⟨congrArg Reply.ordering hreply, hafter⟩
  | satisfies argument rangeText options =>
    obtain ⟨hreply, hafter⟩ := h.satisfiesText argument rangeText options
    exact ⟨congrArg Reply.verdict hreply, hafter⟩

end Cache

/-! ## Stores -/

namespace Store

/-- The store of new caches with the given capacities. -/
def ofCapacities (capacities : List Nat) : Store where
  caches := capacities.map Cache.empty

/-- All caches of the store are faithful. -/
def Faithful (store : Store) : Prop :=
  ∀ cache ∈ store.caches, cache.Faithful

theorem faithful_ofCapacities (capacities : List Nat) : (ofCapacities capacities).Faithful := by
  intro cache hcache
  obtain ⟨capacity, -, rfl⟩ := List.mem_map.1 hcache
  exact Cache.faithful_empty capacity

end Store

namespace Engine

/-- Whatever cache an engine uses, it answers from a faithful store as from scratch. -/
theorem answer_eq {store : Store} (h : store.Faithful) (engine : Engine) (request : Request) :
    (engine.answer store request).1 = request.answer ∧
      (engine.answer store request).2.Faithful := by
  rw [answer]
  cases engine.cache? with
  | none => exact ⟨rfl, h⟩
  | some index =>
    dsimp only
    cases hcache : store.caches[index]? with
    | none => exact ⟨rfl, h⟩
    | some cache =>
      obtain ⟨hreply, hafter⟩ := (h cache (List.mem_of_getElem? hcache)).answer request
      refine ⟨hreply, fun other hother => ?_⟩
      rcases List.mem_or_eq_of_mem_set hother with hother | rfl
      · exact h other hother
      · exact hafter

theorem clear_faithful {store : Store} (h : store.Faithful) (engine : Engine) :
    (engine.clear store).Faithful := by
  rw [clear]
  cases engine.cache? with
  | none => exact h
  | some index =>
    intro cache hcache
    obtain ⟨i, hi⟩ := List.mem_iff_getElem?.1 hcache
    rw [List.getElem?_modify] at hi
    obtain ⟨before, hbefore, rfl⟩ := Option.map_eq_some_iff.1 hi
    split
    · exact Cache.faithful_clear before
    · exact h before (List.mem_of_getElem? hbefore)

end Engine

/-! ## Sessions -/

/-- A step of a session: a request is put to an engine, or the cache of an engine is cleared. -/
inductive Step where
  | ask (engine : Engine) (request : Request)
  | clear (engine : Engine)
deriving DecidableEq, Repr, Inhabited

namespace Step

/-- The reply to a step, if it asks for one, and the store after it. -/
def perform (step : Step) (store : Store) : Option Reply × Store :=
  match step with
  | ask engine request =>
      let (reply, store) := engine.answer store request
      (some reply, store)
  | clear engine => (none, engine.clear store)

/-- The reply to a step if no engine has a cache. -/
def uncachedReply : Step → Option Reply
  | ask _ request => some (Engine.uncached.answer {} request).1
  | clear _ => none

/-- One step on a faithful store: the reply shows nothing of the caches, and they stay faithful. -/
theorem perform_eq {store : Store} (h : store.Faithful) (step : Step) :
    (step.perform store).1 = step.uncachedReply ∧ (step.perform store).2.Faithful := by
  cases step with
  | ask engine request =>
    obtain ⟨hreply, hafter⟩ := Engine.answer_eq h engine request
    exact ⟨congrArg some hreply, hafter⟩
  | clear engine => exact ⟨rfl, Engine.clear_faithful h engine⟩

end Step

namespace Session

/-- The replies to the steps of a session in order, and the store after the last one. -/
def run : List Step → Store → List (Option Reply) × Store
  | [], store => ([], store)
  | step :: steps, store =>
      let (reply, store) := step.perform store
      let (replies, store) := run steps store
      (reply :: replies, store)

/-- A whole session on a faithful store. -/
theorem run_eq (steps : List Step) {store : Store} (h : store.Faithful) :
    (run steps store).1 = steps.map Step.uncachedReply ∧ (run steps store).2.Faithful := by
  induction steps generalizing store with
  | nil => exact ⟨rfl, h⟩
  | cons step steps ih =>
    obtain ⟨hreply, hafter⟩ := step.perform_eq h
    obtain ⟨hreplies, hlast⟩ := ih hafter
    refine ⟨?_, hlast⟩
    rw [List.map_cons, ← hreply, ← hreplies]
    rfl

/-- **No cache shows in a session.**  Take any number of new caches of any capacities, and put
requests to engines that use them, share them or do without, with clearings in between. Then each
request is answered as the engine without a cache answers it. -/
theorem replies_eq_uncached (capacities : List Nat) (steps : List Step) :
    (run steps (.ofCapacities capacities)).1 = steps.map Step.uncachedReply :=
  (run_eq steps (Store.faithful_ofCapacities capacities)).1

end Session
end SemanticVersioning
