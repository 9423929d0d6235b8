import SemanticVersioning.Cache.Table
import SemanticVersioning.Range.Reader

/-!
# Caches of parsed texts

A cache has two tables of one capacity, for versions and for ranges, and reads texts through them.
A text that was read before, with the same options, is answered from its table. Otherwise it is
read and the result is stored, unless it is an error.

When a range text is read for the first time, each complete operand in it is looked up in the table
of versions, under its own text and the loose options, in the order of the text. It is stored there
as a loose reading of the operand alone would store it, with its build metadata, which the range
then drops. This begins only when the whole range text has been read without an error.
-/

namespace SemanticVersioning

/-- Tables of the versions and the ranges that were read. -/
structure Cache where
  versions : Table Version
  ranges : Table Range

namespace Cache

/-- The capacity of a cache for which none is asked. -/
def defaultCapacity : Nat := 1000

/-- The cache without entries. -/
def empty (capacity : Nat) : Cache where
  versions := .empty capacity
  ranges := .empty capacity

/-- The number of versions that a cache has room for, and likewise of ranges. -/
def capacity (cache : Cache) : Nat :=
  cache.versions.capacity

/-- The cache without its entries. -/
def clear (cache : Cache) : Cache where
  versions := cache.versions.clear
  ranges := cache.ranges.clear

/-! ## Reading through a cache -/

/-- A version text read through the cache. -/
def parse (cache : Cache) (text : String) (options : Options) :
    Except ParseError Version × Cache :=
  let (result, versions) :=
    cache.versions.getOrInsert ⟨text, options⟩ fun _ => Version.parse text options
  (result, { cache with versions })

/-- The version of an operand as the table has it, or else as it is offered. -/
def operandMemo (text : String) (options : Options) (v : Version) :
    StateM (Table Version) Version :=
  modifyGet fun versions =>
    match versions.get ⟨text, options⟩ with
    | (some known, versions) => (known, versions)
    | (none, versions) => (v, versions.insert ⟨text, options⟩ v)

/-- The operands of a range text read through the table of versions. -/
def resolve (versions : Table Version) (alternatives : Alternatives Operand) (options : Options) :
    Alternatives Extent × Table Version :=
  (alternatives.mapM (Operand.resolveM operandMemo options)).run versions

/-- A range text read through the cache. -/
def parseRange (cache : Cache) (text : String) (options : Options) :
    Except ParseError Range × Cache :=
  match cache.ranges.get ⟨text, options⟩ with
  | (some range, ranges) => (.ok range, { cache with ranges })
  | (none, ranges) =>
      match Alternatives.parse text with
      | .error e => (.error e, { cache with ranges })
      | .ok alternatives =>
          let (resolved, versions) := resolve cache.versions alternatives options
          let range := Range.ofAlternatives options resolved
          (.ok range, { versions, ranges := ranges.insert ⟨text, options⟩ range })

/-! ## Description -/

/-- A record as text: its name, and its fields in order. -/
private def renderRecord (name : String) (fields : List (String × String)) : String :=
  name ++ " \x7b " ++ ", ".intercalate (fields.map fun field => field.1 ++ ": " ++ field.2)
    ++ " \x7d"

/-- The counts of a table as text. -/
def renderStatistics (statistics : Statistics) : String :=
  renderRecord "CacheStats"
    [("hits", statistics.hits.repr), ("misses", statistics.misses.repr),
     ("evictions", statistics.evictions.repr), ("entries", statistics.entries.repr)]

/-- The capacity and the counts of a cache as text. -/
def render (cache : Cache) : String :=
  renderRecord "ParseCache"
    [("capacity", cache.capacity.repr),
     ("versions", renderStatistics cache.versions.statistics),
     ("ranges", renderStatistics cache.ranges.statistics)]

end Cache
end SemanticVersioning
