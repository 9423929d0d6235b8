import SemanticVersioning.Cache.Basic
import SemanticVersioning.Request

/-!
# Engines

An engine answers requests through a cache or without one. Caches are kept in a `Store`, and an
engine only names the one it uses, so that several engines can share a cache: what one of them has
read, the others find. A copy of an engine names the same cache.

Texts are read in the same order as without a cache, and an error ends a request where it would end
it there. What was looked up before the error stays looked up.
-/

namespace SemanticVersioning

/-! ## Requests through a cache -/

namespace Cache

/-- The version that an argument stands for, read through the cache if it is a text. -/
def resolveArgument (cache : Cache) (argument : VersionArgument) (options : Options) :
    Except ParseError Version × Cache :=
  match argument with
  | .text t => cache.parse t options
  | .version v => (.ok v, cache)

/-- How two arguments compare, read through the cache. -/
def compareArguments (cache : Cache) (a b : VersionArgument) (options : Options) :
    Except ParseError Ordering × Cache :=
  match cache.resolveArgument a options with
  | (.error e, cache) => (.error e, cache)
  | (.ok v, cache) =>
      match cache.resolveArgument b options with
      | (.error e, cache) => (.error e, cache)
      | (.ok w, cache) => (.ok (compare v w), cache)

/-- Whether the range of a text admits what an argument stands for, both read through the cache. -/
def satisfiesText (cache : Cache) (argument : VersionArgument) (rangeText : String)
    (options : Options) : Except ParseError Bool × Cache :=
  match cache.parseRange rangeText options with
  | (.error e, cache) => (.error e, cache)
  | (.ok range, cache) =>
      match cache.resolveArgument argument options with
      | (.error e, cache) => (.error e, cache)
      | (.ok v, cache) => (.ok (range.admits v), cache)

/-- The answer to a request, read through the cache. -/
def answer (cache : Cache) : Request → Reply × Cache
  | .parse text options =>
      let (result, cache) := cache.parse text options
      (.version result, cache)
  | .parseRange text options =>
      let (result, cache) := cache.parseRange text options
      (.range result, cache)
  | .compare a b options =>
      let (result, cache) := cache.compareArguments a b options
      (.ordering result, cache)
  | .satisfies argument rangeText options =>
      let (result, cache) := cache.satisfiesText argument rangeText options
      (.verdict result, cache)

end Cache

/-! ## Engines and their store -/

/-- The caches that engines can name. -/
structure Store where
  caches : List Cache := []

/-- A way of answering requests: through the cache of that index, or from scratch. -/
structure Engine where
  cache? : Option Nat := none
deriving DecidableEq, Repr, Inhabited

namespace Engine

/-- The engine that reads each text anew. -/
def uncached : Engine := {}

/-- An engine that uses the cache of an index. -/
def sharing (index : Nat) : Engine := { cache? := some index }

/-- A new engine with a new cache of its own. -/
def create (store : Store) (capacity : Nat) : Engine × Store :=
  (.sharing store.caches.length, { caches := store.caches ++ [Cache.empty capacity] })

/-- The cache that an engine uses. -/
def cacheIn? (engine : Engine) (store : Store) : Option Cache := do
  store.caches[← engine.cache?]?

/-- The answer of an engine to a request. An engine that names no cache of the store answers from
scratch. -/
def answer (engine : Engine) (store : Store) (request : Request) : Reply × Store :=
  match engine.cache? with
  | none => (request.answer, store)
  | some index =>
      match store.caches[index]? with
      | none => (request.answer, store)
      | some cache =>
          let (reply, cache) := cache.answer request
          (reply, { caches := store.caches.set index cache })

/-- The store after an engine has cleared its cache. -/
def clear (engine : Engine) (store : Store) : Store :=
  match engine.cache? with
  | none => store
  | some index => { caches := store.caches.modify index Cache.clear }

end Engine
end SemanticVersioning
