import Mathlib.Data.List.Nodup
import SemanticVersioning.Cache.Table

/-!
# Tables as lists in the order of arrival

A table keeps five structures in step: four maps with the values, and one queue that remembers in
which order the keys came. This module proves that nobody who only asks and stores can tell it from
a plain list of keys with values (`Entries`), in which

* a key that is there gets its new value in its place,
* a new key comes last, and then entries leave from the front until at most `capacity` remain,
* a value that could not be computed is not stored, and clearing leaves the empty list.

The relation between the two is `Table.Mirrors`: each key has the same value in both, the queue has
the places of the keys in the order of the list, and no key is there twice. What carries an eviction
is that last part: the map that loses the oldest text must not hold it for a later entry of the queue
(`Table.mirrors_evict`). One operation keeps the relation and gives the same answer
(`Operation.perform_mirrors`), so a run of any operations does, by induction
(`Operation.run_empty`).
-/

namespace SemanticVersioning

variable {α ε σ : Type}

/-! ## Lists of entries -/

/-- Keys with their values, in the order in which the keys came. -/
abbrev Entries (α : Type) := List (Key × α)

namespace Entries

/-- The keys of the entries, in their order. -/
def keys (entries : Entries α) : List Key :=
  entries.map Prod.fst

/-- The entries that are left when entries have left from the front until at most `capacity`
remain. -/
def keepLast (capacity : Nat) (entries : Entries α) : Entries α :=
  entries.drop (entries.length - capacity)

/-- The entries with another value under a key, in the place where the key is. -/
def replace (entries : Entries α) (key : Key) (a : α) : Entries α :=
  entries.map fun entry => if entry.1 = key then (key, a) else entry

/-- The entries with a value under a key, at most `capacity` of them. -/
def insert (capacity : Nat) (entries : Entries α) (key : Key) (a : α) : Entries α :=
  if key ∈ entries.keys then
    entries.replace key a
  else
    keepLast capacity (entries ++ [(key, a)])

variable {entries : Entries α} {key : Key}

theorem keepLast_of_length_le {capacity : Nat} (h : entries.length ≤ capacity) :
    keepLast capacity entries = entries := by
  rw [keepLast, Nat.sub_eq_zero_of_le h, List.drop_zero]

theorem keepLast_cons_of_lt {capacity : Nat} (entry : Key × α)
    (h : capacity < entries.length + 1) :
    keepLast capacity (entry :: entries) = keepLast capacity entries := by
  have hsurplus : entries.length + 1 - capacity = entries.length - capacity + 1 := by omega
  rw [keepLast, keepLast, List.length_cons, hsurplus, List.drop_succ_cons]

@[simp] theorem keys_cons (entry : Key × α) (entries : Entries α) :
    keys (entry :: entries) = entry.1 :: entries.keys :=
  rfl

@[simp] theorem keys_append (entries more : Entries α) :
    keys (entries ++ more) = entries.keys ++ more.keys :=
  List.map_append

@[simp] theorem length_keys (entries : Entries α) : entries.keys.length = entries.length :=
  List.length_map _

@[simp] theorem keys_replace (entries : Entries α) (key : Key) (a : α) :
    (entries.replace key a).keys = entries.keys := by
  rw [keys, keys, replace, List.map_map]
  refine List.map_congr_left fun entry _ => ?_
  by_cases h : entry.1 = key <;> simp [h]

@[simp] theorem length_replace (entries : Entries α) (key : Key) (a : α) :
    (entries.replace key a).length = entries.length :=
  List.length_map _

theorem lookup_cons (entry : Key × α) (entries : Entries α) (key : Key) :
    List.lookup key (entry :: entries) =
      if key = entry.1 then some entry.2 else entries.lookup key := by
  rw [List.lookup_cons]
  by_cases h : key = entry.1
  · rw [if_pos h, beq_iff_eq.2 h]
  · rw [if_neg h, beq_eq_false_iff_ne.2 h]

theorem lookup_isSome_iff : (entries.lookup key).isSome ↔ key ∈ entries.keys := by
  induction entries with
  | nil => simp [keys]
  | cons entry entries ih =>
    rw [lookup_cons, keys_cons, List.mem_cons, ← ih]
    by_cases h : key = entry.1 <;> simp [h]

theorem lookup_of_not_mem (h : key ∉ entries.keys) : entries.lookup key = none := by
  rw [← lookup_isSome_iff, Option.not_isSome_iff_eq_none] at h
  exact h

/-- Only the value under the key is another one. -/
theorem lookup_replace (entries : Entries α) (key other : Key) (a : α) :
    (entries.replace key a).lookup other =
      (entries.lookup other).map fun b => if other = key then a else b := by
  induction entries with
  | nil => rfl
  | cons entry entries ih =>
    rw [replace, List.map_cons, ← replace, lookup_cons, lookup_cons, ih]
    by_cases hentry : entry.1 = key
    · by_cases hother : other = key <;> simp [hentry, hother]
    · by_cases hother : other = entry.1 <;> simp [hentry, hother]

end Entries

/-! ## What a table has in common with a list -/

namespace Table

/-- A table of some capacity that has just the entries of a list, in the order of the list. -/
structure Mirrors (capacity : Nat) (table : Table α) (entries : Entries α) : Prop where
  capacity_eq : table.capacity = capacity
  valueAt?_eq : ∀ key : Key, table.valueAt? key.place = entries.lookup key
  queue_eq : table.queue = entries.keys.map Key.place
  nodup : entries.keys.Nodup
  length_le : entries.length ≤ capacity

variable {capacity : Nat} {table : Table α} {entries : Entries α}

theorem mirrors_empty (capacity : Nat) : Mirrors capacity (empty capacity : Table α) [] where
  capacity_eq := rfl
  valueAt?_eq key := valueAt?_empty capacity key.place
  queue_eq := rfl
  nodup := List.nodup_nil
  length_le := Nat.zero_le _

/-- Entries leave one by one from the front. Since no key is there twice, the value that is erased
for the first of them belongs to none of the others. -/
theorem mirrors_evict (hcapacity : table.capacity = capacity)
    (hvalues : ∀ key : Key, table.valueAt? key.place = entries.lookup key)
    (hnodup : entries.keys.Nodup) :
    Mirrors capacity (table.evict (entries.keys.map Key.place)) (entries.keepLast capacity) := by
  induction entries generalizing table with
  | nil =>
    rw [Entries.keepLast_of_length_le (Nat.zero_le capacity)]
    exact ⟨hcapacity, hvalues, rfl, hnodup, Nat.zero_le _⟩
  | cons entry entries ih =>
    obtain ⟨hentry, hrest⟩ := List.nodup_cons.1 hnodup
    have hlength : (entry.1.place :: (Entries.keys entries).map Key.place).length =
        entries.length + 1 := by
      rw [List.length_cons, List.length_map, Entries.length_keys]
    rw [Entries.keys_cons, List.map_cons, evict, hlength]
    by_cases hfull : table.capacity < entries.length + 1
    · rw [if_pos hfull, Entries.keepLast_cons_of_lt entry (hcapacity ▸ hfull)]
      refine ih hcapacity (fun key => ?_) hrest
      show (table.eraseValue entry.1.place).valueAt? key.place = _
      rw [valueAt?_eraseValue, hvalues, Entries.lookup_cons]
      by_cases hkey : key = entry.1
      · rw [hkey, if_pos rfl, Entries.lookup_of_not_mem hentry]
      · have hplace : ¬ entry.1.place = key.place := fun h => hkey (Key.place_injective h).symm
        rw [if_neg hplace, if_neg hkey]
    · have hfits : (entry :: entries).length ≤ capacity := hcapacity ▸ Nat.not_lt.1 hfull
      rw [if_neg hfull, Entries.keepLast_of_length_le hfits]
      exact ⟨hcapacity, hvalues, rfl, hnodup, hfits⟩

namespace Mirrors

theorem get (h : Mirrors capacity table entries) (key : Key) :
    (table.get key).1 = entries.lookup key ∧ Mirrors capacity (table.get key).2 entries := by
  refine ⟨(get_fst table key).trans (h.valueAt?_eq key), ?_, fun other => ?_, ?_, h.nodup,
    h.length_le⟩
  · rw [capacity_get, h.capacity_eq]
  · rw [valueAt?_get, h.valueAt?_eq]
  · rw [queue_get, h.queue_eq]

theorem clear (h : Mirrors capacity table entries) : Mirrors capacity table.clear [] where
  capacity_eq := h.capacity_eq
  valueAt?_eq key := valueAt?_clear key.place
  queue_eq := rfl
  nodup := List.nodup_nil
  length_le := Nat.zero_le _

/-- The value under a key that is stored, whether or not the key was there. -/
theorem valueAt?_setValue (h : Mirrors capacity table entries) (key other : Key) (a : α) :
    (table.setValue key.place a).valueAt? other.place =
      if other = key then some a else entries.lookup other := by
  rw [Table.valueAt?_setValue, h.valueAt?_eq]
  by_cases hkey : other = key
  · rw [hkey, if_pos rfl, if_pos rfl]
  · have hplace : ¬ key.place = other.place := fun h => hkey (Key.place_injective h).symm
    rw [if_neg hplace, if_neg hkey]

theorem insert (h : Mirrors capacity table entries) (key : Key) (a : α) :
    Mirrors capacity (table.insert key a) (entries.insert capacity key a) := by
  have hstored : (table.valueAt? key.place).isSome ↔ key ∈ entries.keys := by
    rw [h.valueAt?_eq, Entries.lookup_isSome_iff]
  rw [Table.insert, Entries.insert, h.capacity_eq]
  by_cases hzero : capacity = 0
  · -- The list stores the entry and drops it at once.
    have hlength : entries.length ≤ capacity := h.length_le
    have hnil : entries = [] := List.length_eq_zero_iff.1 (by omega)
    subst hzero hnil
    exact h
  by_cases hkey : key ∈ entries.keys
  · rw [if_neg hzero, if_pos (hstored.2 hkey), if_pos hkey]
    refine ⟨h.capacity_eq, fun other => ?_, ?_, ?_, ?_⟩
    · rw [h.valueAt?_setValue, Entries.lookup_replace]
      by_cases hother : other = key
      · obtain ⟨b, hb⟩ := Option.isSome_iff_exists.1 (Entries.lookup_isSome_iff.2 hkey)
        rw [hother, hb, if_pos rfl, Option.map_some, if_pos rfl]
      · simp [hother]
    · rw [Entries.keys_replace]
      exact h.queue_eq
    · rw [Entries.keys_replace]
      exact h.nodup
    · rw [Entries.length_replace]
      exact h.length_le
  · rw [if_neg hzero, if_neg (fun hsome => hkey (hstored.1 hsome)), if_neg hkey, h.queue_eq]
    have hkeys : (entries ++ [(key, a)]).keys.map Key.place =
        entries.keys.map Key.place ++ [key.place] := by
      rw [Entries.keys_append, List.map_append]
      rfl
    rw [← hkeys]
    refine mirrors_evict h.capacity_eq (fun other => ?_) ?_
    · rw [h.valueAt?_setValue, List.lookup_append, Entries.lookup_cons]
      by_cases hother : other = key
      · rw [hother, if_pos rfl, if_pos rfl, Entries.lookup_of_not_mem hkey, Option.none_or]
      · rw [if_neg hother, if_neg hother, List.lookup_nil, Option.or_none]
    · rw [Entries.keys_append]
      exact h.nodup.append (List.nodup_singleton key) (List.disjoint_singleton.2 hkey)

/-- The queue has the places of all values, and no others. -/
theorem mem_queue_iff (h : Mirrors capacity table entries) (slot : Fin 4) (text : String) :
    (slot, text) ∈ table.queue ↔ text ∈ table.map slot := by
  obtain ⟨options, rfl⟩ := Options.slot_surjective slot
  have hplace : (Key.mk text options).place = (options.slot, text) := rfl
  rw [← hplace, h.queue_eq, List.mem_map_of_injective Key.place_injective,
    ← Entries.lookup_isSome_iff, ← h.valueAt?_eq, valueAt?, Std.HashMap.isSome_getElem?_iff_mem]
  rfl

theorem nodup_queue (h : Mirrors capacity table entries) : table.queue.Nodup := by
  rw [h.queue_eq]
  exact h.nodup.map Key.place_injective

theorem length_queue_le (h : Mirrors capacity table entries) : table.queue.length ≤ capacity := by
  rw [h.queue_eq, List.length_map, Entries.length_keys]
  exact h.length_le

end Mirrors
end Table

/-! ## Operations -/

/-- What can be done with a table. -/
inductive Operation (ε α : Type) where
  | get (key : Key)
  | insert (key : Key) (a : α)
  | getOrInsert (key : Key) (compute : Unit → Except ε α)
  | clear

/-- What an operation answers. -/
inductive Answer (ε α : Type) where
  | value (found : Option α)
  | result (computed : Except ε α)
  | done
deriving DecidableEq, Repr, Inhabited

namespace Operation

/-- An operation on a table. -/
def perform (table : Table α) : Operation ε α → Answer ε α × Table α
  | get key => (.value (table.get key).1, (table.get key).2)
  | insert key a => (.done, table.insert key a)
  | getOrInsert key compute =>
      (.result (table.getOrInsert key compute).1, (table.getOrInsert key compute).2)
  | clear => (.done, table.clear)

/-- The same operation on a list of at most `capacity` entries. -/
def performOnEntries (capacity : Nat) (entries : Entries α) :
    Operation ε α → Answer ε α × Entries α
  | get key => (.value (entries.lookup key), entries)
  | insert key a => (.done, entries.insert capacity key a)
  | getOrInsert key compute =>
      match entries.lookup key with
      | some a => (.result (.ok a), entries)
      | none =>
          match compute () with
          | .ok a => (.result (.ok a), entries.insert capacity key a)
          | .error e => (.result (.error e), entries)
  | clear => (.done, [])

/-- The answers to operations one after the other, and what they leave behind. -/
def run (perform : σ → Operation ε α → Answer ε α × σ) (s : σ) :
    List (Operation ε α) → List (Answer ε α) × σ
  | [] => ([], s)
  | operation :: operations =>
      let (answer, s) := perform s operation
      let (answers, s) := run perform s operations
      (answer :: answers, s)

variable {capacity : Nat} {table : Table α} {entries : Entries α}

/-- One operation: the answers are the same, and so is what is stored afterwards. -/
theorem perform_mirrors (h : table.Mirrors capacity entries) (operation : Operation ε α) :
    (operation.perform table).1 = (operation.performOnEntries capacity entries).1 ∧
      (operation.perform table).2.Mirrors capacity
        (operation.performOnEntries capacity entries).2 := by
  cases operation with
  | get key =>
    obtain ⟨hvalue, hafter⟩ := h.get key
    exact ⟨congrArg Answer.value hvalue, hafter⟩
  | insert key a => exact ⟨rfl, h.insert key a⟩
  | clear => exact ⟨rfl, h.clear⟩
  | getOrInsert key compute =>
    obtain ⟨hvalue, hafter⟩ := h.get key
    rw [perform, performOnEntries, Table.getOrInsert]
    cases hfound : table.get key with
    | mk found table' =>
      rw [hfound] at hvalue hafter
      rw [← hvalue]
      cases found with
      | some a => exact ⟨rfl, hafter⟩
      | none =>
        dsimp only
        cases compute () with
        | ok a => exact ⟨rfl, hafter.insert key a⟩
        | error e => exact ⟨rfl, hafter⟩

/-- A whole run of operations. -/
theorem run_mirrors (h : table.Mirrors capacity entries) (operations : List (Operation ε α)) :
    (run perform table operations).1 = (run (performOnEntries capacity) entries operations).1 ∧
      (run perform table operations).2.Mirrors capacity
        (run (performOnEntries capacity) entries operations).2 := by
  induction operations generalizing table entries with
  | nil => exact ⟨rfl, h⟩
  | cons operation operations ih =>
    obtain ⟨hanswer, hafter⟩ := perform_mirrors h operation
    obtain ⟨hanswers, hlast⟩ := ih hafter
    exact ⟨congrArg₂ List.cons hanswer hanswers, hlast⟩

/-- **A table is a bounded list in the order of arrival.**  Whatever is asked of a new table, it
answers as the list does, and in the end each key has the value that the list has for it. The queue
has the keys of the list in their order. These are the keys of the four maps, each of them once, and
they are at most as many as the capacity. -/
theorem run_empty (capacity : Nat) (operations : List (Operation ε α)) :
    ∃ (answers : List (Answer ε α)) (table : Table α) (entries : Entries α),
      run perform (.empty capacity) operations = (answers, table) ∧
      run (performOnEntries capacity) [] operations = (answers, entries) ∧
      (∀ key, (table.get key).1 = entries.lookup key) ∧
      table.queue = entries.keys.map Key.place ∧
      (∀ slot text, (slot, text) ∈ table.queue ↔ text ∈ table.map slot) ∧
      table.queue.Nodup ∧ table.queue.length ≤ capacity := by
  obtain ⟨hanswers, h⟩ := run_mirrors (Table.mirrors_empty capacity) operations
  exact ⟨_, _, _, rfl, Prod.ext hanswers.symm rfl, fun key => (h.get key).1, h.queue_eq,
    h.mem_queue_iff, h.nodup_queue, h.length_queue_le⟩

end Operation
end SemanticVersioning
