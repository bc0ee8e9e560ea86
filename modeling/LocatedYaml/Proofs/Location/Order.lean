import LocatedYaml.Location.Table

/-!
# Positions in order

Along a text the entries of its position table only ascend: a line feed starts a later line, every other character a
later column, and the bytes of one character share an entry.  With the offset as the last thing that is compared,
positions are in the order of their offsets (`isLE_compare_position`).

So the location of the whole text, which starts at line 1, column 1 even when the first character is a line feed,
holds every known position of a range inside the text (`start_le_location`, `location_le_stop`).  The first position
of such a range is always known, the last one unless the range ends at offset 0.
-/

namespace LocatedYaml

/-- Lines are compared first, then columns, then offsets. -/
theorem Position.compare_eq (p q : Position) : compare p q =
    (compare p.line q.line).then ((compare p.column q.column).then (compare p.offset q.offset)) := by
  rw [← @Ordering.then_eq (compare p.offset q.offset)]
  rfl

theorem Position.isLE_compare_iff {p q : Position} : (compare p q).isLE ↔
    p.line < q.line ∨ p.line = q.line ∧ (p.column < q.column ∨ p.column = q.column ∧ p.offset ≤ q.offset) := by
  simp only [compare_eq, Ordering.isLE_then_iff_or, Int.compare_eq_lt, Int.compare_eq_eq, Int.isLE_compare]

namespace LineColumn

/-- Earlier line, or the same line and no later column. -/
def Le (a b : LineColumn) : Prop := a.line < b.line ∨ a.line = b.line ∧ a.column ≤ b.column

theorem Le.refl (a : LineColumn) : a.Le a := Or.inr ⟨rfl, Int.le_refl _⟩

theorem Le.trans {a b c : LineColumn} (hab : a.Le b) (hbc : b.Le c) : a.Le c := by
  unfold Le at *
  omega

theorem le_next (before : LineColumn) (c : Char) : before.Le (before.next c) := by
  unfold next
  split
  · exact Or.inl (Int.lt_add_one_iff.2 (Int.le_refl _))
  · exact Or.inr ⟨rfl, Int.le_add_one (Int.le_refl _)⟩

end LineColumn

namespace PositionTable

variable {t : Text} {before entry : LineColumn} {a b : Nat}

/-! ### The entries of a table -/

theorem le_of_mem_entriesFrom (h : entry ∈ entriesFrom before t) : before.Le entry := by
  induction t generalizing before with
  | nil =>
    obtain rfl := List.mem_singleton.1 h
    exact Or.inr ⟨rfl, Int.le_add_one (Int.le_refl _)⟩
  | cons c cs ih =>
    refine (LineColumn.le_next before c).trans ?_
    rcases List.mem_append.1 h with h | h
    · obtain rfl := List.eq_of_mem_replicate h
      exact .refl _
    · exact ih h

theorem pairwise_entriesFrom (before : LineColumn) (t : Text) : (entriesFrom before t).Pairwise LineColumn.Le := by
  induction t generalizing before with
  | nil => exact List.pairwise_singleton ..
  | cons c cs ih =>
    refine List.pairwise_append.2 ⟨List.pairwise_replicate.2 (Or.inr (.refl _)), ih _, fun entry h entry' h' => ?_⟩
    obtain rfl := List.eq_of_mem_replicate h
    exact le_of_mem_entriesFrom h'

/-- Lines and columns count from 1. -/
theorem one_le_of_mem_entriesFrom (hline : 1 ≤ before.line) (hcolumn : 0 ≤ before.column)
    (h : entry ∈ entriesFrom before t) : 1 ≤ entry.line ∧ 1 ≤ entry.column := by
  induction t generalizing before with
  | nil =>
    obtain rfl := List.mem_singleton.1 h
    exact ⟨hline, Int.le_add_of_sub_right_le hcolumn⟩
  | cons c cs ih =>
    have hnext : 1 ≤ (before.next c).line ∧ 1 ≤ (before.next c).column := by
      unfold LineColumn.next
      split <;> constructor <;> simp only <;> omega
    rcases List.mem_append.1 h with h | h
    · obtain rfl := List.eq_of_mem_replicate h
      exact hnext
    · exact ih hnext.1 (by omega) h

/-! ### Looking up offsets -/

theorem getElem?_entriesFrom (h : a ≤ t.byteLength) :
    (entriesFrom ⟨1, 0⟩ t)[a]? = some ((ofText t).lineColumn a) := by
  have hlt : a < (entriesFrom ⟨1, 0⟩ t).length := by
    rw [length_entriesFrom]
    omega
  rw [lineColumn, if_neg (by omega), Int.toNat_natCast, ofText, List.getElem?_toArray, List.getElem?_eq_getElem hlt,
    Option.getD_some]

theorem one_le_lineColumn (h : a ≤ t.byteLength) :
    1 ≤ ((ofText t).lineColumn a).line ∧ 1 ≤ ((ofText t).lineColumn a).column :=
  one_le_of_mem_entriesFrom (Int.le_refl _) (Int.le_refl _) (List.mem_of_getElem? (getElem?_entriesFrom h))

theorem lineColumn_le (hab : a ≤ b) (hb : b ≤ t.byteLength) :
    ((ofText t).lineColumn a).Le ((ofText t).lineColumn b) := by
  rcases Nat.lt_or_eq_of_le hab with hlt | rfl
  · obtain ⟨ha', ha⟩ := List.getElem?_eq_some_iff.1 (getElem?_entriesFrom (Nat.le_trans hab hb))
    obtain ⟨hb', hb⟩ := List.getElem?_eq_some_iff.1 (getElem?_entriesFrom hb)
    rw [← ha, ← hb]
    exact List.pairwise_iff_getElem.1 (pairwise_entriesFrom ⟨1, 0⟩ t) a b ha' hb' hlt
  · exact .refl _

/-- Positions inside a text are in the order of their offsets. -/
theorem isLE_compare_position (hab : a ≤ b) (hb : b ≤ t.byteLength) :
    (compare ((ofText t).position a) ((ofText t).position b)).isLE := by
  have hle := lineColumn_le hab hb
  rw [Position.isLE_compare_iff]
  have hoffset : ((ofText t).position a).offset ≤ ((ofText t).position b).offset := Int.ofNat_le.2 hab
  rcases hle with hline | ⟨hline, hcolumn⟩
  · exact Or.inl hline
  · exact Or.inr ⟨hline, (Int.lt_or_eq_of_le hcolumn).imp_right fun heq => ⟨heq, hoffset⟩⟩

/-! ### Known positions -/

theorem isUnknown_position_of_neg {offset : Int} (h : offset < 0) : ((ofText t).position offset).isUnknown = true :=
  decide_eq_true (if_pos h)

theorem isUnknown_position (h : a ≤ t.byteLength) : ((ofText t).position a).isUnknown = false := by
  refine decide_eq_false fun heq : (ofText t).lineColumn a = .unknown => ?_
  have hline := (one_le_lineColumn h).1
  rw [heq] at hline
  exact absurd hline (by decide)

theorem carried_sub_one {n : Nat} (h : n ≠ 0) : carried n - 1 = (min n maxOffset - 1 : Nat) := by
  have hmax : 0 < maxOffset := by decide
  unfold carried
  omega

/-! ### Locations inside a text -/

section Location

variable {range : Option Range} (hrange : ∀ r, range = some r → r.start ≤ t.byteLength ∧ r.stop ≤ t.byteLength)

include hrange

/-- The start of a location is known when there is a range. -/
theorem isUnknown_start_location :
    ((ofText t).location range).start.isUnknown = true ↔ range = none := by
  cases range with
  | none => exact ⟨fun _ => rfl, fun _ => isUnknown_position_of_neg (by decide)⟩
  | some r =>
    have hle := (hrange r rfl).1
    have hknown : ((ofText t).location (some r)).start.isUnknown = false :=
      isUnknown_position (Nat.le_trans (Nat.min_le_left ..) hle)
    simp [hknown]

/-- The end of a location is known when there is a range that does not end at offset 0. -/
theorem isUnknown_stop_location :
    ((ofText t).location range).stop.isUnknown = true ↔ ∀ r, range = some r → r.stop = 0 := by
  cases range with
  | none => exact ⟨fun _ _ h => (nomatch h), fun _ => isUnknown_position_of_neg (by decide)⟩
  | some r =>
    have hle := (hrange r rfl).2
    by_cases hstop : r.stop = 0
    · have hunknown : ((ofText t).location (some r)).stop.isUnknown = true := by
        refine isUnknown_position_of_neg ?_
        rw [hstop]
        decide
      simp [hunknown, hstop]
    · have hknown : ((ofText t).location (some r)).stop.isUnknown = false := by
        rw [location, carried_sub_one hstop]
        exact isUnknown_position (by omega)
      simp [hknown, hstop]

/-- What has a range starts no earlier than line 1, column 1. -/
theorem start_le_location (h : ((ofText t).location range).start.isUnknown = false) :
    (compare (ofText t).documentLocation.start ((ofText t).location range).start).isLE := by
  cases range with
  | none => exact absurd (isUnknown_position_of_neg (by decide)) (ne_true_of_eq_false h)
  | some r =>
    have hle : min r.start maxOffset ≤ t.byteLength := Nat.le_trans (Nat.min_le_left ..) (hrange r rfl).1
    obtain ⟨hline, hcolumn⟩ := one_le_lineColumn hle
    refine Position.isLE_compare_iff.2 ?_
    change 1 < ((ofText t).lineColumn _).line ∨ 1 = ((ofText t).lineColumn _).line ∧
      (1 < ((ofText t).lineColumn _).column ∨ 1 = ((ofText t).lineColumn _).column ∧
        0 ≤ ((min r.start maxOffset : Nat) : Int))
    unfold carried
    omega

/-- What has a range ends no later than the last byte of the text. -/
theorem location_le_stop (h : ((ofText t).location range).stop.isUnknown = false) :
    (compare ((ofText t).location range).stop (ofText t).documentLocation.stop).isLE := by
  cases range with
  | none => exact absurd (isUnknown_position_of_neg (by decide)) (ne_true_of_eq_false h)
  | some r =>
    have hle := (hrange r rfl).2
    have hstop : r.stop ≠ 0 := fun hstop => by
      have hunknown := (isUnknown_stop_location hrange).2 fun r' hr' => Option.some.inj hr' ▸ hstop
      rw [h] at hunknown
      cases hunknown
    rw [location, documentLocation, byteLength_ofText, carried_sub_one hstop, carried_sub_one (by omega)]
    exact isLE_compare_position (by omega) (by omega)

end Location

end PositionTable

end LocatedYaml
