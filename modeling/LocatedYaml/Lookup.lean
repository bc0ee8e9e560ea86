/-!
# Look-ups

A table is a list of entries that are looked up by their keys.
-/

namespace LocatedYaml

/-- Other entries are found as before when all entries with one key are taken out. -/
theorem lookup_filter_ne {α β : Type} [BEq α] [LawfulBEq α] [DecidableEq α] {key other : α} (h : other ≠ key)
    (entries : List (α × β)) : (entries.filter (·.1 ≠ key)).lookup other = entries.lookup other := by
  induction entries with
  | nil => rfl
  | cons entry entries ih =>
    obtain ⟨found, value⟩ := entry
    by_cases hfound : found = key
    · subst hfound
      rw [List.filter_cons_of_neg (by simp), ih, List.lookup_cons, beq_eq_false_iff_ne.2 h]
    · rw [List.filter_cons_of_pos (by simpa using hfound), List.lookup_cons, List.lookup_cons, ih]

end LocatedYaml
