import Mathlib.Data.List.Induction
import Mathlib.Order.Lattice
import SemanticVersioning.Best

/-!
# What a scan for the best element finds

A scan seeks a key if an element that displaces another one has no smaller key, and one that does not
has no greater key (`Seeks`). What is kept in the end then has a key that no element exceeds. To seek
the smallest key is to seek the greatest one in the reversed order.

Where the answer stands follows from the scan alone: nothing after it displaces it, and it displaces
what was kept of the elements before it (`exists_split_of_best?_eq_some`). In a linear order it is
the last element with the greatest key if equals displace, and the first one if they do not.

In a partial order such a key is the only one of its kind. The key of the answer therefore depends on
which keys occur, and not on how often they do or in what order (`Seeks.map_best?_congr`). Which of
the elements with that key is the answer does depend on the order, but not on anything else that the
scan does not look at (`map_best?`).
-/

namespace SemanticVersioning

variable {α β : Type}

/-- Whether a scan seeks the greatest key. -/
structure Seeks [LE β] (displaces : α → α → Bool) (key : α → β) : Prop where
  le_of_displaces : ∀ {a b : α}, displaces b a = true → key a ≤ key b
  le_of_stays : ∀ {a b : α}, displaces b a = false → key b ≤ key a

variable {displaces : α → α → Bool} {key : α → β}

theorem exists_best? (displaces : α → α → Bool) {as : List α} (h : as ≠ []) :
    ∃ m, best? displaces as = some m := by
  cases hbest : best? displaces as with
  | none => exact absurd (best?_eq_none_iff.1 hbest) h
  | some m => exact ⟨m, rfl⟩

/-- A scan that looks at the keys alone may be made over the keys. -/
theorem map_best? (displaces : β → β → Bool) (key : α → β) (as : List α) :
    (best? (fun b a => displaces (key b) (key a)) as).map key =
      best? displaces (as.map key) := by
  match as with
  | [] => rfl
  | [a] => rfl
  | a :: b :: as =>
    rw [best?_cons_cons, map_best? displaces key, List.map_cons, List.map_cons, List.map_cons,
      best?_cons_cons, apply_ite key]
termination_by as.length

/-- An element at the end displaces what was kept, or does not. -/
theorem best?_concat {as : List α} {k : α} (hk : best? displaces as = some k) (b : α) :
    best? displaces (as ++ [b]) = some (if displaces b k then b else k) := by
  cases as with
  | nil => exact nomatch hk
  | cons a as =>
    obtain rfl := Option.some.inj hk
    rw [List.cons_append, best?, List.foldl_append]
    rfl

/-- The answer stands between elements that do not displace it and elements of which it displaces
what was kept. -/
theorem exists_split_of_best?_eq_some {as : List α} {m : α} (hm : best? displaces as = some m) :
    ∃ before after, as = before ++ m :: after ∧ (∀ b ∈ after, displaces b m = false) ∧
      ∀ k, best? displaces before = some k → displaces m k = true := by
  -- the scan goes from left to right, so the list grows at its end
  induction as using List.reverseRecOn with
  | nil => exact nomatch hm
  | append_singleton as b ih =>
    cases hk : best? displaces as with
    | none =>
      obtain rfl := best?_eq_none_iff.1 hk
      obtain rfl : b = m := Option.some.inj hm
      exact ⟨[], [], rfl, by simp, by simp⟩
    | some k =>
      rw [best?_concat hk] at hm
      cases hd : displaces b k with
      | true =>
        rw [hd, if_pos rfl] at hm
        obtain rfl := Option.some.inj hm
        refine ⟨as, [], rfl, by simp, fun k' hk' => ?_⟩
        rw [hk] at hk'
        exact Option.some.inj hk' ▸ hd
      | false =>
        rw [hd, if_neg Bool.false_ne_true] at hm
        obtain rfl := Option.some.inj hm
        obtain ⟨before, after, rfl, hafter, hbefore⟩ := ih hk
        refine ⟨before, after ++ [b], by simp, ?_, hbefore⟩
        rw [List.forall_mem_append, List.forall_mem_singleton]
        exact ⟨hafter, hd⟩

namespace Seeks

/-- **No element has a greater key than the answer.** -/
theorem le_of_best?_eq_some [Preorder β] (h : Seeks displaces key) {as : List α} {m : α}
    (hm : best? displaces as = some m) : ∀ a ∈ as, key a ≤ key m := by
  match as with
  | [] => exact nomatch hm
  | [a] =>
    obtain rfl : a = m := Option.some.inj hm
    simp
  | a :: b :: as =>
    rw [best?_cons_cons] at hm
    have hrest := h.le_of_best?_eq_some hm
    -- of the first two elements the one that is kept stands for both
    have hkept := hrest _ List.mem_cons_self
    have htail : ∀ c ∈ as, key c ≤ key m := fun c hc => hrest c (List.mem_cons_of_mem _ hc)
    rw [List.forall_mem_cons, List.forall_mem_cons]
    cases hd : displaces b a with
    | true =>
      rw [hd, if_pos rfl] at hkept
      exact ⟨le_trans (h.le_of_displaces hd) hkept, hkept, htail⟩
    | false =>
      rw [hd, if_neg Bool.false_ne_true] at hkept
      exact ⟨hkept, le_trans (h.le_of_stays hd) hkept, htail⟩
termination_by as.length

/-- **Only the keys that occur matter for the key of the answer.** -/
theorem map_best?_congr [PartialOrder β] (h : Seeks displaces key) {as bs : List α}
    (hkeys : ∀ k, k ∈ as.map key ↔ k ∈ bs.map key) :
    (best? displaces as).map key = (best? displaces bs).map key := by
  have hle : ∀ {as bs : List α} {m n : α}, (∀ k, k ∈ as.map key ↔ k ∈ bs.map key) →
      best? displaces as = some m → best? displaces bs = some n → key m ≤ key n := by
    intro as bs m n hkeys hm hn
    have hmem := List.mem_map_of_mem (f := key) (mem_of_best?_eq_some hm)
    obtain ⟨b, hb, hkey⟩ := List.mem_map.1 ((hkeys _).1 hmem)
    rw [← hkey]
    exact h.le_of_best?_eq_some hn b hb
  cases hm : best? displaces as with
  | none =>
    obtain rfl := best?_eq_none_iff.1 hm
    have hbs : bs = [] := List.map_eq_nil_iff.1 (List.eq_nil_iff_forall_not_mem.2 fun k hk =>
      List.not_mem_nil ((hkeys k).2 hk))
    rw [hbs, best?_nil]
  | some m =>
    have hbs : bs ≠ [] := by
      rintro rfl
      exact List.not_mem_nil ((hkeys (key m)).1 (List.mem_map_of_mem (mem_of_best?_eq_some hm)))
    obtain ⟨n, hn⟩ := exists_best? displaces hbs
    rw [hn, Option.map_some, Option.map_some]
    exact congrArg some (le_antisymm (hle hkeys hm hn) (hle (fun k => (hkeys k).symm) hn hm))

/-- What stands before the answer has no greater key than what the answer displaces. -/
theorem exists_le_displaced [Preorder β] (h : Seeks displaces key) {as : List α} {m a : α}
    (hm : ∀ k, best? displaces as = some k → displaces m k = true) (ha : a ∈ as) :
    ∃ k, key a ≤ key k ∧ displaces m k = true := by
  obtain ⟨k, hk⟩ := exists_best? displaces (List.ne_nil_of_mem ha)
  exact ⟨k, h.le_of_best?_eq_some hk a ha, hm k hk⟩

end Seeks

/-! ## Equals -/

section LinearOrder

variable [LinearOrder β] {as : List α} {m : α}

theorem Seeks.of_displaces_iff_le (hd : ∀ a b, displaces b a = true ↔ key a ≤ key b) :
    Seeks displaces key where
  le_of_displaces h := (hd _ _).1 h
  le_of_stays h := le_of_not_ge fun hle => Bool.false_ne_true (h.symm.trans ((hd _ _).2 hle))

theorem Seeks.of_displaces_iff_lt (hd : ∀ a b, displaces b a = true ↔ key a < key b) :
    Seeks displaces key where
  le_of_displaces h := ((hd _ _).1 h).le
  le_of_stays h := le_of_not_gt fun hlt => Bool.false_ne_true (h.symm.trans ((hd _ _).2 hlt))

/-- **If equals displace, the answer is the last element with the greatest key.** -/
theorem exists_split_of_displaces_iff_le (hd : ∀ a b, displaces b a = true ↔ key a ≤ key b)
    (hm : best? displaces as = some m) : ∃ before after, as = before ++ m :: after ∧
      (∀ a ∈ before, key a ≤ key m) ∧ ∀ b ∈ after, key b < key m := by
  obtain ⟨before, after, rfl, hafter, hbefore⟩ := exists_split_of_best?_eq_some hm
  refine ⟨before, after, rfl, fun a ha => ?_, fun b hb => ?_⟩
  · obtain ⟨k, hle, hdisplaced⟩ := (Seeks.of_displaces_iff_le hd).exists_le_displaced hbefore ha
    exact hle.trans ((hd k m).1 hdisplaced)
  · exact lt_of_not_ge fun hle => Bool.false_ne_true ((hafter b hb).symm.trans ((hd m b).2 hle))

/-- **If equals do not displace, the answer is the first element with the greatest key.** -/
theorem exists_split_of_displaces_iff_lt (hd : ∀ a b, displaces b a = true ↔ key a < key b)
    (hm : best? displaces as = some m) : ∃ before after, as = before ++ m :: after ∧
      (∀ a ∈ before, key a < key m) ∧ ∀ b ∈ after, key b ≤ key m := by
  obtain ⟨before, after, rfl, hafter, hbefore⟩ := exists_split_of_best?_eq_some hm
  refine ⟨before, after, rfl, fun a ha => ?_, fun b hb => ?_⟩
  · obtain ⟨k, hle, hdisplaced⟩ := (Seeks.of_displaces_iff_lt hd).exists_le_displaced hbefore ha
    exact hle.trans_lt ((hd k m).1 hdisplaced)
  · exact le_of_not_gt fun hlt => Bool.false_ne_true ((hafter b hb).symm.trans ((hd m b).2 hlt))

end LinearOrder
end SemanticVersioning
