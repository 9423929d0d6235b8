import SemanticVersioning.Cache.Table

/-!
# The counts of a table balance

A table is used in two ways. A key is looked up, and what is not found is read and stored; or the
table is cleared. A `Ledger` keeps the table together with what an observer notes of these uses: how
many lookups there were, how many of them failed, and how many entries the clearings removed.

The counts of the table do not depend on the observer, and yet they add up with what was noted
(`Ledger.Balanced`).

* Each lookup is a hit or a miss.
* If the table has room, each miss that does not fail brings one entry. This entry is still there,
  or it was evicted, or a clearing removed it.
* If the table has no room, nothing is ever found, stored or evicted.

A lookup ends in one of three ways (`Table.getOrInsert_cases`), and for each of them it is enough to
know that evictions move entries from the queue to the count of evictions, one by one
(`Table.length_queue_evict`). That a whole run balances follows by induction on the uses
(`Ledger.balanced_run`).

If the table has no room, the sums alone are not preserved: a hit would count, and only the values
tell that there is none. So the invariant also says that such a table is vacant.
-/

namespace SemanticVersioning

variable {α ε : Type}

namespace Table

/-! ## The counts after each operation -/

variable {table : Table α} {key : Key}

/-- Evictions change the values, the queue and the count of evictions, and nothing else. -/
theorem evict_keeps {β : Type} (f : Table α → β)
    (hleave : ∀ (table : Table α) place,
      f { table.eraseValue place with evictions := table.evictions + 1 } = f table)
    (hqueue : ∀ (table : Table α) queue, f { table with queue } = f table) (table : Table α)
    (queue : List (Fin 4 × String)) : f (table.evict queue) = f table := by
  induction queue generalizing table with
  | nil => exact hqueue table []
  | cons place queue ih =>
    rw [evict]
    split
    · exact (ih _).trans (hleave table place)
    · exact hqueue table _

/-- Each entry that leaves is counted. -/
theorem length_queue_evict (table : Table α) (queue : List (Fin 4 × String)) :
    (table.evict queue).queue.length + (table.evict queue).evictions =
      queue.length + table.evictions := by
  induction queue generalizing table with
  | nil => rfl
  | cons place queue ih =>
    rw [evict]
    split
    · rw [ih, List.length_cons]
      show queue.length + (table.evictions + 1) = queue.length + 1 + table.evictions
      omega
    · rfl

theorem insert_eq_self (h : table.capacity = 0) (key : Key) (a : α) : table.insert key a = table :=
  if_pos h

/-- An insertion changes no more than evictions do. -/
theorem insert_keeps {β : Type} (f : Table α → β)
    (hvalue : ∀ (table : Table α) place a, f (table.setValue place a) = f table)
    (hleave : ∀ (table : Table α) place,
      f { table.eraseValue place with evictions := table.evictions + 1 } = f table)
    (hqueue : ∀ (table : Table α) queue, f { table with queue } = f table) (table : Table α)
    (key : Key) (a : α) : f (table.insert key a) = f table := by
  rw [insert]
  split
  · rfl
  · split
    · exact hvalue table key.place a
    · exact (evict_keeps f hleave hqueue _ _).trans (hvalue table key.place a)

theorem hits_insert (table : Table α) (key : Key) (a : α) :
    (table.insert key a).hits = table.hits :=
  insert_keeps hits (fun _ _ _ => rfl) (fun _ _ => rfl) (fun _ _ => rfl) table key a

theorem misses_insert (table : Table α) (key : Key) (a : α) :
    (table.insert key a).misses = table.misses :=
  insert_keeps misses (fun _ _ _ => rfl) (fun _ _ => rfl) (fun _ _ => rfl) table key a

/-- If there is room, a new key is one more entry, of all that are there or were evicted. -/
theorem length_queue_insert (hcapacity : 0 < table.capacity)
    (h : table.valueAt? key.place = none) (a : α) :
    (table.insert key a).queue.length + (table.insert key a).evictions =
      table.queue.length + table.evictions + 1 := by
  have habsent : ¬ (table.valueAt? key.place).isSome = true := by
    rw [h]
    exact Bool.false_ne_true
  rw [insert, if_neg (Nat.ne_of_gt hcapacity), if_neg habsent, length_queue_evict,
    List.length_append, List.length_singleton]
  show table.queue.length + 1 + table.evictions = _
  omega

/-- The table when it has missed a key once more. -/
def missed (table : Table α) : Table α := { table with misses := table.misses + 1 }

/-- A lookup finds the value of its key, or fails to compute it, or computes it and stores it. -/
theorem getOrInsert_cases (table : Table α) (key : Key) (compute : Unit → Except ε α) :
    (∃ a, table.valueAt? key.place = some a ∧
      table.getOrInsert key compute = (.ok a, { table with hits := table.hits + 1 })) ∨
    (∃ e, table.getOrInsert key compute = (.error e, table.missed)) ∨
    (∃ a, table.valueAt? key.place = none ∧
      table.getOrInsert key compute = (.ok a, table.missed.insert key a)) := by
  rw [getOrInsert, get]
  cases hvalue : table.valueAt? key.place with
  | some a => exact Or.inl ⟨a, rfl, rfl⟩
  | none =>
    dsimp only
    cases compute () with
    | error e => exact Or.inr (Or.inl ⟨e, rfl⟩)
    | ok a => exact Or.inr (Or.inr ⟨a, rfl, rfl⟩)

/-! ## Uses -/

/-- What is done with a table whose values are read from their keys. -/
inductive Use where
  | lookup (key : Key)
  | clear
deriving DecidableEq, Repr, Inhabited

/-- Whether a use is a lookup. -/
def Use.isLookup : Use → Bool
  | lookup _ => true
  | clear => false

/-- The table after a use. What a lookup does not find is read. -/
def afterUse (read : Key → Except ε α) (table : Table α) : Use → Table α
  | .lookup key => (table.getOrInsert key fun _ => read key).2
  | .clear => table.clear

/-- The table after uses, one after the other. -/
def afterUses (read : Key → Except ε α) (table : Table α) (uses : List Use) : Table α :=
  uses.foldl (afterUse read) table

theorem afterUses_append (read : Key → Except ε α) (table : Table α) (uses more : List Use) :
    table.afterUses read (uses ++ more) = (table.afterUses read uses).afterUses read more :=
  List.foldl_append

/-- The table after several keys have been looked up, one after the other. -/
def lookUp (read : Key → Except ε α) (table : Table α) (keys : List Key) : Table α :=
  table.afterUses read (keys.map .lookup)

theorem lookUp_append (read : Key → Except ε α) (table : Table α) (keys more : List Key) :
    table.lookUp read (keys ++ more) = (table.lookUp read keys).lookUp read more := by
  rw [lookUp, List.map_append, afterUses_append]
  rfl

/-- Each lookup counts once, as a hit or as a miss. -/
theorem hits_add_misses_lookUp (read : Key → Except ε α) (table : Table α) (keys : List Key) :
    (table.lookUp read keys).statistics.hits + (table.lookUp read keys).statistics.misses =
      table.statistics.hits + table.statistics.misses + keys.length := by
  induction keys generalizing table with
  | nil => rfl
  | cons key keys ih =>
    have hkey : (table.afterUse read (.lookup key)).statistics.hits +
        (table.afterUse read (.lookup key)).statistics.misses =
          table.statistics.hits + table.statistics.misses + 1 := by
      rcases table.getOrInsert_cases key fun _ => read key with
        ⟨a, -, hfound⟩ | ⟨e, hfailed⟩ | ⟨a, -, hstored⟩
      · simp only [afterUse, hfound, statistics]
        omega
      · simp only [afterUse, hfailed, statistics, missed]
        omega
      · simp only [afterUse, hstored, statistics, hits_insert, misses_insert, missed]
        omega
    have hkeys := ih (table.afterUse read (.lookup key))
    rw [hkey] at hkeys
    rw [List.length_cons]
    refine hkeys.trans ?_
    omega

end Table

/-! ## Ledgers -/

/-- A table and what is noted of its uses. -/
structure Ledger (α : Type) where
  table : Table α
  /-- How often a key was looked up. -/
  lookups : Nat := 0
  /-- How often that failed: the key was not found, and could not be read either. -/
  failures : Nat := 0
  /-- How many entries were removed, in all clearings together. -/
  removed : Nat := 0

namespace Ledger

open Table (Use)

variable {capacity : Nat} {ledger : Ledger α} (read : Key → Except ε α)

/-- The ledger of a new table. -/
def new (capacity : Nat) : Ledger α where
  table := .empty capacity

/-- The ledger after a use of the table. -/
def note (ledger : Ledger α) : Use → Ledger α
  | .lookup key =>
      let (result, table) := ledger.table.getOrInsert key fun _ => read key
      { ledger with
        table
        lookups := ledger.lookups + 1
        failures := if result.isOk then ledger.failures else ledger.failures + 1 }
  | .clear =>
      { ledger with
        table := ledger.table.clear
        removed := ledger.removed + ledger.table.statistics.entries }

/-- The ledger after uses of the table, one after the other. -/
def run (ledger : Ledger α) (uses : List Use) : Ledger α :=
  uses.foldl (note read) ledger

/-- Every lookup is noted, however it ends. -/
theorem lookups_run (ledger : Ledger α) (uses : List Use) :
    (ledger.run read uses).lookups = ledger.lookups + uses.countP Use.isLookup := by
  induction uses generalizing ledger with
  | nil => rfl
  | cons use uses ih =>
    have hrest : (ledger.run read (use :: uses)).lookups =
        (ledger.note read use).lookups + uses.countP Use.isLookup := ih _
    rw [hrest, List.countP_cons]
    cases use with
    | lookup key =>
      show ledger.lookups + 1 + _ = ledger.lookups + (_ + 1)
      omega
    | clear => rfl

/-- The table of the ledger is the table that was used. -/
theorem table_run (ledger : Ledger α) (uses : List Use) :
    (ledger.run read uses).table = ledger.table.afterUses read uses := by
  induction uses generalizing ledger with
  | nil => rfl
  | cons use uses ih =>
    refine (ih (ledger.note read use)).trans ?_
    cases use <;> rfl

/-- The counts of the table add up with what is noted. -/
structure Balanced (capacity : Nat) (ledger : Ledger α) : Prop where
  capacity_eq : ledger.table.capacity = capacity
  lookups_eq :
    ledger.table.statistics.hits + ledger.table.statistics.misses = ledger.lookups
  misses_eq : 0 < capacity → ledger.table.statistics.misses =
    ledger.failures + (ledger.table.statistics.entries + ledger.table.statistics.evictions +
      ledger.removed)
  idle : capacity = 0 → ledger.table.statistics.hits = 0 ∧
    ledger.table.statistics.entries = 0 ∧ ledger.table.statistics.evictions = 0
  vacant : capacity = 0 → ∀ place, ledger.table.valueAt? place = none

theorem balanced_new (capacity : Nat) : Balanced capacity (new capacity : Ledger α) where
  capacity_eq := rfl
  lookups_eq := rfl
  misses_eq _ := rfl
  idle _ := ⟨rfl, rfl, rfl⟩
  vacant _ := Table.valueAt?_empty capacity

/-- A clearing moves the entries to those that were removed. -/
theorem Balanced.clear (h : Balanced capacity ledger) :
    Balanced capacity (ledger.note read .clear) where
  capacity_eq := h.capacity_eq
  lookups_eq := h.lookups_eq
  misses_eq hcapacity := by
    have hmisses := h.misses_eq hcapacity
    simp only [note, Table.statistics, Table.clear, List.length_nil] at hmisses ⊢
    omega
  idle hcapacity := by
    obtain ⟨hhits, -, hevictions⟩ := h.idle hcapacity
    exact ⟨hhits, rfl, hevictions⟩
  vacant _ := Table.valueAt?_clear

/-- What is noted of a lookup, from how it ends. -/
theorem note_lookup {key : Key} {result : Except ε α} {table : Table α}
    (h : ledger.table.getOrInsert key (fun _ => read key) = (result, table)) :
    ledger.note read (.lookup key) =
      { ledger with
        table
        lookups := ledger.lookups + 1
        failures := if result.isOk then ledger.failures else ledger.failures + 1 } := by
  rw [note, h]

/-- A lookup that succeeds without finding its key brings one entry, if there is room for any. -/
theorem Balanced.insert (h : Balanced capacity ledger) {key : Key}
    (habsent : ledger.table.valueAt? key.place = none) (a : α) :
    Balanced capacity
      { ledger with
        table := ledger.table.missed.insert key a
        lookups := ledger.lookups + 1 } := by
  have hlookups := h.lookups_eq
  rcases Nat.eq_zero_or_pos capacity with hzero | hpos
  · have hfull : ledger.table.missed.capacity = 0 := h.capacity_eq.trans hzero
    have hnoroom : ¬ 0 < capacity := Nat.not_lt.2 (Nat.le_of_eq hzero)
    rw [Table.insert_eq_self hfull]
    refine ⟨h.capacity_eq, ?_, fun hpos => absurd hpos hnoroom, h.idle, h.vacant⟩
    simp only [Table.statistics, Table.missed] at hlookups ⊢
    omega
  · have hmisses := h.misses_eq hpos
    have hroom : 0 < ledger.table.missed.capacity := h.capacity_eq ▸ hpos
    have hentries := Table.length_queue_insert hroom habsent a
    have hpositive : capacity ≠ 0 := Nat.ne_of_gt hpos
    refine ⟨?_, ?_, fun _ => ?_, fun hzero => absurd hzero hpositive,
      fun hzero => absurd hzero hpositive⟩
    · rw [Table.capacity_insert]
      exact h.capacity_eq
    · simp only [Table.statistics, Table.hits_insert, Table.misses_insert, Table.missed]
        at hlookups ⊢
      omega
    · simp only [Table.statistics, Table.misses_insert] at hmisses hentries ⊢
      simp only [Table.missed] at hentries ⊢
      omega

/-- **One use.**  Whatever is done with the table, its counts go on to add up. -/
theorem Balanced.note (h : Balanced capacity ledger) (use : Use) :
    Balanced capacity (ledger.note read use) := by
  cases use with
  | clear => exact h.clear read
  | lookup key =>
    have hlookups := h.lookups_eq
    rcases ledger.table.getOrInsert_cases key fun _ => read key with
      ⟨a, hvalue, hfound⟩ | ⟨e, hfailed⟩ | ⟨a, habsent, hstored⟩
    · rw [note_lookup read hfound]
      have hnotvacant : capacity ≠ 0 := fun hzero =>
        Option.some_ne_none a (hvalue.symm.trans (h.vacant hzero key.place))
      refine ⟨h.capacity_eq, ?_, h.misses_eq, fun hzero => absurd hzero hnotvacant, h.vacant⟩
      simp only [Table.statistics] at hlookups ⊢
      omega
    · rw [note_lookup read hfailed]
      refine ⟨h.capacity_eq, ?_, fun hpos => ?_, h.idle, h.vacant⟩
      · simp only [Table.statistics, Table.missed] at hlookups ⊢
        omega
      · have hmisses := h.misses_eq hpos
        have hfails : (Except.error e : Except ε α).isOk = false := rfl
        simp only [Table.statistics, Table.missed, hfails, Bool.false_eq_true, if_false]
          at hmisses ⊢
        omega
    · rw [note_lookup read hstored]
      exact h.insert habsent a

/-- **A whole run of uses of a new table balances.** -/
theorem balanced_run (capacity : Nat) (uses : List Use) :
    Balanced capacity ((new capacity).run read uses) := by
  suffices h : ∀ ledger : Ledger α, Balanced capacity ledger →
      Balanced capacity (ledger.run read uses) from h _ (balanced_new capacity)
  induction uses with
  | nil => exact fun ledger h => h
  | cons use uses ih => exact fun ledger h => ih (ledger.note read use) (h.note read use)

end Ledger
end SemanticVersioning
