import SemanticVersioning.Range.Expansion

/-!
# Where the comparators of a term come from

The comparators of a term are made up, or they are over a version that was written. What is made up
is a floor or a ceiling, whatever the form of the term and however far its operands go, and its
numbers are those of the operand, the numbers after them, and zero. The version of a complete
operand, on the other hand, is never lost: each form of a term has a comparator over it.

* `Extent.Reaches`: the numbers that the end of a stretch can have.
* `Comparator.DrawnFrom`: the three ways in which a comparator comes from an operand.
* `Term.exists_drawnFrom_of_mem_expand`: each comparator of a term is drawn from an operand.
* `Term.exists_mem_expand_of_full`: each complete operand has a comparator over its version.
-/

namespace SemanticVersioning

/-! ## The numbers of operands and of what is made up from them -/

namespace Extent

/-- The numbers that an operand gives. -/
def numbers : Extent → List Nat
  | any => []
  | major M => [M]
  | minor M m => [M, m]
  | full v => [v.core.major, v.core.minor, v.core.patch]

/-- The numbers of the ends of a stretch: zero, the numbers of the operand, and those after them. -/
def Reaches (e : Extent) (n : Nat) : Prop :=
  n = 0 ∨ n ∈ e.numbers ∨ ∃ m ∈ e.numbers, n = m + 1

variable {e : Extent} {n : Nat}

@[simp] theorem reaches_zero (e : Extent) : e.Reaches 0 :=
  Or.inl rfl

/-- Below a limit for the numbers of an operand, what is made up is at the limit at most. -/
theorem Reaches.le {limit : Nat} (h : e.Reaches n) (hlimit : ∀ m ∈ e.numbers, m < limit) :
    n ≤ limit := by
  rcases h with rfl | hn | ⟨m, hm, rfl⟩
  · exact Nat.zero_le limit
  · exact Nat.le_of_lt (hlimit n hn)
  · exact hlimit m hm

end Extent

/-- The ways in which a comparator comes from an operand: it is the end of a stretch, or it is over
the version that the operand gives. -/
inductive Comparator.DrawnFrom (includePrerelease : Bool) (e : Extent) : Comparator → Prop
  | floor {major minor patch : Nat} : e.Reaches major ∧ e.Reaches minor ∧ e.Reaches patch →
      DrawnFrom includePrerelease e (.floor includePrerelease major minor patch)
  | ceiling {major minor patch : Nat} : e.Reaches major ∧ e.Reaches minor ∧ e.Reaches patch →
      DrawnFrom includePrerelease e (.ceiling major minor patch)
  | written {op : Operator} {v : Version} : e = .full v → DrawnFrom includePrerelease e ⟨op, v⟩

namespace Comparator.DrawnFrom

attribute [simp] floor ceiling

variable {includePrerelease : Bool}

@[simp] theorem compare_full (op : Operator) (v : Version) :
    DrawnFrom includePrerelease (.full v) ⟨op, v⟩ :=
  .written rfl

@[simp] theorem atLeast_full (v : Version) :
    DrawnFrom includePrerelease (.full v) (.atLeast v) :=
  .written rfl

/-- Nothing is below or above everything, which the ceiling of the lowest version says. -/
@[simp] theorem below_lowest (e : Extent) : DrawnFrom includePrerelease e (.below .lowest) :=
  .ceiling ⟨e.reaches_zero, e.reaches_zero, e.reaches_zero⟩

/-- The numbers of a comparator are ones that its operand reaches. -/
theorem reaches {e : Extent} {c : Comparator} (h : c.DrawnFrom includePrerelease e) :
    e.Reaches c.version.core.major ∧ e.Reaches c.version.core.minor ∧
      e.Reaches c.version.core.patch := by
  cases h with
  | floor hreaches => cases includePrerelease <;> exact hreaches
  | ceiling hreaches => exact hreaches
  | written he =>
    subst he
    simp [Extent.Reaches, Extent.numbers]

end Comparator.DrawnFrom

namespace Extent

open Comparator

variable {includePrerelease : Bool}

theorem drawnFrom_compared (e : Extent) (op : Operator) :
    ∀ c ∈ e.compared includePrerelease op, c.DrawnFrom includePrerelease e := by
  cases e <;> cases op <;> simp [compared, agreeing, Reaches, numbers]

theorem drawnFrom_tilde (e : Extent) :
    ∀ c ∈ e.tilde includePrerelease, c.DrawnFrom includePrerelease e := by
  cases e <;> simp [tilde, Reaches, numbers]

/-- The comparators of a caret are a lower end and a ceiling, wherever the first number other than
zero stands. -/
theorem caret_full (includePrerelease : Bool) (v : Version) :
    ∃ major minor patch,
      ((full v).Reaches major ∧ (full v).Reaches minor ∧ (full v).Reaches patch) ∧
        caret includePrerelease (.full v) = [.atLeast v, .ceiling major minor patch] := by
  obtain ⟨⟨⟨major, minor, patch⟩, is⟩, parts, raw, options⟩ := v
  cases major with
  | succ major => exact ⟨major + 2, 0, 0, by simp [Reaches, numbers], rfl⟩
  | zero =>
    cases minor with
    | succ minor => exact ⟨0, minor + 2, 0, by simp [Reaches, numbers], rfl⟩
    | zero => exact ⟨0, 0, patch + 1, by simp [Reaches, numbers], rfl⟩

theorem drawnFrom_caret (e : Extent) :
    ∀ c ∈ e.caret includePrerelease, c.DrawnFrom includePrerelease e := by
  cases e with
  | any => simp [caret]
  | major M => simp [caret, Reaches, numbers]
  | minor M m => cases M <;> simp [caret, Reaches, numbers]
  | full v =>
    obtain ⟨major, minor, patch, hreaches, hcaret⟩ := caret_full includePrerelease v
    simp [hcaret, hreaches]

theorem drawnFrom_lowerEnd (e : Extent) :
    ∀ c ∈ e.lowerEnd includePrerelease, c.DrawnFrom includePrerelease e := by
  cases e <;> simp [lowerEnd, Reaches, numbers]

theorem drawnFrom_upperEnd (e : Extent) :
    ∀ c ∈ e.upperEnd, c.DrawnFrom includePrerelease e := by
  cases e <;> simp [upperEnd, Reaches, numbers]

end Extent

namespace Term

open Extent

/-- **Each comparator of a term is drawn from one of its operands.** -/
theorem exists_drawnFrom_of_mem_expand {includePrerelease : Bool} {x : Term Extent}
    {c : Comparator} (hc : c ∈ x.expand includePrerelease) :
    ∃ e ∈ x.operands, c.DrawnFrom includePrerelease e := by
  cases x with
  | compare op e => exact ⟨e, List.mem_singleton_self e, e.drawnFrom_compared op c hc⟩
  | tilde e => exact ⟨e, List.mem_singleton_self e, e.drawnFrom_tilde c hc⟩
  | caret e => exact ⟨e, List.mem_singleton_self e, e.drawnFrom_caret c hc⟩
  | hyphen lower upper =>
    rcases List.mem_append.1 hc with hc | hc
    · exact ⟨lower, by simp [operands], lower.drawnFrom_lowerEnd c hc⟩
    · exact ⟨upper, by simp [operands], upper.drawnFrom_upperEnd c hc⟩

/-- **No complete operand is lost.**  Each form of a term has a comparator over the version of a
complete operand. -/
theorem exists_mem_expand_of_full {x : Term Extent} {v : Version} (hv : .full v ∈ x.operands)
    (includePrerelease : Bool) : ∃ c ∈ x.expand includePrerelease, c.version = v := by
  cases x with
  | compare op e =>
    obtain rfl := List.mem_singleton.1 hv
    exact ⟨⟨op, v⟩, List.mem_singleton_self _, rfl⟩
  | tilde e =>
    obtain rfl := List.mem_singleton.1 hv
    exact ⟨.atLeast v, List.mem_cons_self, rfl⟩
  | caret e =>
    obtain rfl := List.mem_singleton.1 hv
    obtain ⟨major, minor, patch, -, hcaret⟩ := caret_full includePrerelease v
    refine ⟨.atLeast v, ?_, rfl⟩
    simp only [expand, hcaret, List.mem_cons, true_or]
  | hyphen lower upper =>
    rcases List.mem_cons.1 hv with rfl | hv
    · exact ⟨.atLeast v, List.mem_append_left _ (List.mem_singleton_self _), rfl⟩
    · obtain rfl := List.mem_singleton.1 hv
      exact ⟨⟨.lessOrEqual, v⟩, List.mem_append_right _ (List.mem_singleton_self _), rfl⟩

theorem operands_map {α β : Type} (f : α → β) (x : Term α) :
    (x.map f).operands = x.operands.map f := by
  cases x <;> rfl

end Term

/-! ## Terms as they are written -/

theorem Operand.numbers_resolve (o : Operand) (options : Options) :
    (o.resolve options).numbers = o.extent.numbers := by
  rw [resolve]
  cases o.extent <;> rfl

theorem Operand.resolve_eq_full_iff {o : Operand} {options : Options} {v : Version} :
    o.resolve options = .full v ↔ ∃ w, o.extent = .full w ∧
      v = { w with build := [], raw := some o.text, options := options.loosely } := by
  rw [resolve]
  cases o.extent <;> simp [Extent.map, eq_comm]

namespace Term

/-- The comparators of a term as it is written. -/
def comparators (options : Options) (x : Term Operand) : List Comparator :=
  (x.map (Operand.resolve options)).expand options.includePrerelease

theorem exists_drawnFrom_of_mem_comparators {options : Options} {x : Term Operand}
    {c : Comparator} (hc : c ∈ x.comparators options) :
    ∃ o ∈ x.operands, c.DrawnFrom options.includePrerelease (o.resolve options) := by
  obtain ⟨e, he, hdrawn⟩ := exists_drawnFrom_of_mem_expand hc
  rw [operands_map] at he
  obtain ⟨o, ho, rfl⟩ := List.mem_map.1 he
  exact ⟨o, ho, hdrawn⟩

theorem exists_mem_comparators_of_full {options : Options} {x : Term Operand} {o : Operand}
    (ho : o ∈ x.operands) {v : Version} (hv : o.resolve options = .full v) :
    ∃ c ∈ x.comparators options, c.version = v := by
  refine exists_mem_expand_of_full ?_ options.includePrerelease
  rw [operands_map, ← hv]
  exact List.mem_map_of_mem ho

end Term
end SemanticVersioning
