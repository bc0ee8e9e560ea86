/-!
# Results of chains

What is known of the links of a chain of computations that may fail, when the chain as a whole has succeeded; and the
failure of a chain, which is that of the first link that fails (`errorOf?_bind`).
-/

namespace LocatedYaml

variable {ε α β : Type} {x : Except ε α}

theorem ok_bind (a : α) (f : α → Except ε β) : (Except.ok a >>= f) = f a := rfl

theorem bind_eq_ok {f : α → Except ε β} {b : β} (h : (x >>= f) = .ok b) : ∃ a, x = .ok a ∧ f a = .ok b := by
  cases x with
  | error e => cases h
  | ok a => exact ⟨a, rfl, h⟩

theorem map_eq_ok {f : α → β} {b : β} (h : x.map f = .ok b) : ∃ a, x = .ok a ∧ b = f a := by
  cases x with
  | error e => cases h
  | ok a => exact ⟨a, rfl, (Except.ok.inj h).symm⟩

/-! ### Failures -/

/-- The failure of a computation, if it fails. -/
def errorOf? : Except ε α → Option ε
  | .error e => some e
  | .ok _ => none

theorem errorOf?_eq_some_iff {e : ε} : errorOf? x = some e ↔ x = .error e := by
  cases x <;> simp [errorOf?]

theorem errorOf?_eq_none_iff : errorOf? x = none ↔ ∃ a, x = .ok a := by
  cases x <;> simp [errorOf?]

@[simp] theorem errorOf?_map (f : α → β) : errorOf? (x.map f) = errorOf? x := by
  cases x <;> rfl

/-- What comes later in a chain matters only if the first link succeeds; here it fails or not whatever that link
gives. -/
theorem errorOf?_bind {f : α → Except ε β} {later : Option ε} (h : ∀ a, errorOf? (f a) = later) :
    errorOf? (x >>= f) = (errorOf? x).or later := by
  cases x with
  | error e => rfl
  | ok a => exact h a

end LocatedYaml
