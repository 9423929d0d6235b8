import SemanticVersioning.Options
import Std.Data.HashMap

/-!
# Bounded tables of results

A table remembers results under keys, at most `capacity` of them. A key is a text with the options
it was read with. There is a hash map from texts to values for each combination of the options; one
queue of all keys remembers in which order they came. When a new key would exceed the capacity, the
oldest one leaves. A key that is stored again keeps its place in the queue, and a table of capacity
zero stores nothing.

Each table counts how often a key was found, how often it was not, and how many entries left to make
room. Clearing a table drops its entries and keeps the counts.
-/

namespace SemanticVersioning

/-- What a result is remembered under. -/
structure Key where
  text : String
  options : Options
deriving DecidableEq, Repr, Inhabited

/-- Which of the four maps has the results for these options. -/
def Options.slot (options : Options) : Fin 4 :=
  ⟨options.loose.toNat + 2 * options.includePrerelease.toNat, by
    rcases options with ⟨_ | _, _ | _⟩ <;> decide⟩

/-- Where the value of a key is: the number of a map, and the text to look for in it. -/
def Key.place (key : Key) : Fin 4 × String :=
  (key.options.slot, key.text)

theorem Options.slot_injective : Function.Injective Options.slot := by
  rintro ⟨_ | _, _ | _⟩ ⟨_ | _, _ | _⟩ <;> decide

/-- No map is superfluous. -/
theorem Options.slot_surjective : Function.Surjective Options.slot := by
  intro slot
  refine ⟨{ loose := slot.val % 2 = 1, includePrerelease := slot.val / 2 = 1 }, ?_⟩
  revert slot
  decide

theorem Key.place_injective : Function.Injective Key.place := by
  rintro ⟨text, options⟩ ⟨text', options'⟩ h
  obtain ⟨hslot, htext⟩ := Prod.mk.inj h
  rw [Key.mk.injEq]
  exact ⟨htext, Options.slot_injective hslot⟩

/-- Results under keys, the oldest of which leave when room is needed. -/
structure Table (α : Type) where
  capacity : Nat
  /-- The values by their texts, one map for each combination of the options. -/
  maps : Vector (Std.HashMap String α) 4 := .replicate 4 {}
  /-- The places of the keys, the oldest first. -/
  queue : List (Fin 4 × String) := []
  hits : Nat := 0
  misses : Nat := 0
  evictions : Nat := 0

/-- The counts of a table, and how many entries it has. -/
structure Statistics where
  hits : Nat
  misses : Nat
  evictions : Nat
  entries : Nat
deriving DecidableEq, Repr, Inhabited

namespace Table

variable {α ε : Type}

/-- The table without entries. -/
def empty (capacity : Nat) : Table α := { capacity }

/-- The map of that number. -/
def map (table : Table α) (slot : Fin 4) : Std.HashMap String α :=
  table.maps[slot]

/-- The value at a place, if there is one. -/
def valueAt? (table : Table α) (place : Fin 4 × String) : Option α :=
  (table.map place.1)[place.2]?

/-- The table with another map for some options, and with the same queue. -/
def setMap (table : Table α) (slot : Fin 4) (values : Std.HashMap String α) : Table α :=
  { table with maps := table.maps.set slot values }

/-- The table with a value at a place, and with the same queue. -/
def setValue (table : Table α) (place : Fin 4 × String) (a : α) : Table α :=
  table.setMap place.1 ((table.map place.1).insert place.2 a)

/-- The table without a value at a place, and with the same queue. -/
def eraseValue (table : Table α) (place : Fin 4 × String) : Table α :=
  table.setMap place.1 ((table.map place.1).erase place.2)

/-- The value under a key, if there is one. The table counts the question. -/
def get (table : Table α) (key : Key) : Option α × Table α :=
  match table.valueAt? key.place with
  | some a => (some a, { table with hits := table.hits + 1 })
  | none => (none, { table with misses := table.misses + 1 })

/-- The table with as much of a queue as fits: the oldest keys leave, with their values. -/
def evict (table : Table α) : List (Fin 4 × String) → Table α
  | [] => { table with queue := [] }
  | place :: queue =>
      if table.capacity < (place :: queue).length then
        evict { table.eraseValue place with evictions := table.evictions + 1 } queue
      else
        { table with queue := place :: queue }

/-- The table with a value under a key. -/
def insert (table : Table α) (key : Key) (a : α) : Table α :=
  if table.capacity = 0 then
    table
  else if (table.valueAt? key.place).isSome then
    table.setValue key.place a
  else
    evict (table.setValue key.place a) (table.queue ++ [key.place])

/-- The value under a key, which is computed if the table does not have it. A value that was
computed is stored, a failure is not. -/
def getOrInsert (table : Table α) (key : Key) (compute : Unit → Except ε α) :
    Except ε α × Table α :=
  match table.get key with
  | (some a, table) => (.ok a, table)
  | (none, table) =>
      match compute () with
      | .ok a => (.ok a, table.insert key a)
      | .error e => (.error e, table)

/-- The table without its entries, and with its counts. -/
def clear (table : Table α) : Table α :=
  { table with maps := .replicate 4 {}, queue := [] }

/-- The counts of a table, and how many entries it has. -/
def statistics (table : Table α) : Statistics where
  hits := table.hits
  misses := table.misses
  evictions := table.evictions
  entries := table.queue.length

/-! ## The values after each operation -/

variable {table : Table α}

@[simp] theorem valueAt?_empty (capacity : Nat) (place : Fin 4 × String) :
    (empty capacity : Table α).valueAt? place = none := by
  simp [valueAt?, map, empty]

@[simp] theorem valueAt?_clear (place : Fin 4 × String) : table.clear.valueAt? place = none := by
  simp [valueAt?, map, clear]

theorem map_setMap (slot other : Fin 4) (values : Std.HashMap String α) :
    (table.setMap slot values).map other = if slot = other then values else table.map other := by
  rw [map, setMap]
  by_cases h : slot = other
  · simp [h]
  · have hval : slot.val ≠ other.val := fun hval => h (Fin.ext hval)
    simp [h, map, Vector.getElem_set_ne _ _ hval]

theorem valueAt?_setValue (place other : Fin 4 × String) (a : α) :
    (table.setValue place a).valueAt? other =
      if place = other then some a else table.valueAt? other := by
  obtain ⟨slot, text⟩ := place
  obtain ⟨slot', text'⟩ := other
  rw [setValue, valueAt?, map_setMap, valueAt?]
  by_cases hslot : slot = slot'
  · subst hslot
    simp [Std.HashMap.getElem?_insert]
  · simp [hslot]

theorem valueAt?_eraseValue (place other : Fin 4 × String) :
    (table.eraseValue place).valueAt? other =
      if place = other then none else table.valueAt? other := by
  obtain ⟨slot, text⟩ := place
  obtain ⟨slot', text'⟩ := other
  rw [eraseValue, valueAt?, map_setMap, valueAt?]
  by_cases hslot : slot = slot'
  · subst hslot
    simp [Std.HashMap.getElem?_erase]
  · simp [hslot]

theorem get_fst (table : Table α) (key : Key) : (table.get key).1 = table.valueAt? key.place := by
  rw [get]
  split <;> simp_all

theorem valueAt?_get (table : Table α) (key : Key) (place : Fin 4 × String) :
    (table.get key).2.valueAt? place = table.valueAt? place := by
  rw [get]
  split <;> rfl

/-! ## What each operation leaves alone -/

theorem queue_get (table : Table α) (key : Key) : (table.get key).2.queue = table.queue := by
  rw [get]
  split <;> rfl

@[simp] theorem capacity_empty (capacity : Nat) : (empty capacity : Table α).capacity = capacity :=
  rfl

@[simp] theorem capacity_clear (table : Table α) : table.clear.capacity = table.capacity := rfl

@[simp] theorem capacity_get (table : Table α) (key : Key) :
    (table.get key).2.capacity = table.capacity := by
  rw [get]
  split <;> rfl

theorem capacity_evict (table : Table α) (queue : List (Fin 4 × String)) :
    (table.evict queue).capacity = table.capacity := by
  induction queue generalizing table with
  | nil => rfl
  | cons place queue ih =>
    rw [evict]
    split
    · exact ih _
    · rfl

@[simp] theorem capacity_insert (table : Table α) (key : Key) (a : α) :
    (table.insert key a).capacity = table.capacity := by
  rw [insert]
  split
  · rfl
  · split
    · rfl
    · exact capacity_evict _ _

end Table
end SemanticVersioning
