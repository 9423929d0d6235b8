/-!
# The best element of a list

Several questions of this library ask for a highest or a lowest element of a list. One scan answers
them all: it keeps an element, and each later one displaces it or not. Which of several equally good
elements is the answer depends on whether an equal displaces the one kept (then it is the last) or
not (then it is the first).
-/

namespace SemanticVersioning

variable {α : Type}

/-- What is kept of a list if each element displaces the one kept so far whenever it may. -/
def best? (displaces : α → α → Bool) : List α → Option α
  | [] => none
  | a :: as => some (as.foldl (fun kept b => if displaces b kept then b else kept) a)

@[simp] theorem best?_nil (displaces : α → α → Bool) : best? displaces [] = none := rfl

@[simp] theorem best?_singleton (displaces : α → α → Bool) (a : α) :
    best? displaces [a] = some a := rfl

theorem best?_cons_cons (displaces : α → α → Bool) (a b : α) (as : List α) :
    best? displaces (a :: b :: as) =
      best? displaces ((if displaces b a then b else a) :: as) := rfl

theorem best?_eq_none_iff {displaces : α → α → Bool} {as : List α} :
    best? displaces as = none ↔ as = [] := by
  cases as <;> simp [best?]

/-- The answer is one of the elements. -/
theorem mem_of_best?_eq_some {displaces : α → α → Bool} {as : List α} {a : α}
    (h : best? displaces as = some a) : a ∈ as := by
  match as with
  | [] => exact nomatch h
  | [b] => exact List.mem_singleton.2 (Option.some.inj h).symm
  | b :: c :: as =>
    rw [best?_cons_cons] at h
    have hkept : a ∈ (if displaces c b then c else b) :: as := mem_of_best?_eq_some h
    cases hdisplaces : displaces c b with
    | true =>
      rw [hdisplaces, if_pos rfl] at hkept
      exact List.mem_cons_of_mem b hkept
    | false =>
      rw [hdisplaces, if_neg Bool.false_ne_true] at hkept
      rcases List.mem_cons.1 hkept with rfl | hrest
      · exact List.mem_cons_self
      · exact List.mem_cons_of_mem b (List.mem_cons_of_mem c hrest)
termination_by as.length

end SemanticVersioning
