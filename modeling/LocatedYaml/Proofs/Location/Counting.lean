import LocatedYaml.Proofs.Location.Order
import Mathlib.Tactic.ByContra

/-!
# Positions by counting

Going over a text, the line counts its line feeds and the column the characters since the last of them
(`LineColumn.line_after`, `LineColumn.column_after_break`).  The table of a text has this line and column for every
byte of a character (`lineColumn_of_inCharacter`), and one column more for the end of the text
(`lineColumn_byteLength`).

A later character has a later line or column, so positions compare as their offsets do (`compare_position`), and
offsets with the same line and column lie in the same character (`lineColumn_eq_iff`).
-/

namespace LocatedYaml

/-- Positions of different offsets differ in the offset at least. -/
theorem Position.eq_of_compare {p q : Position} (h : compare p q = .eq) : p.offset = q.offset := by
  rw [compare_eq] at h
  have hoffset := (Ordering.then_eq_eq.1 (Ordering.then_eq_eq.1 h).2).2
  exact Int.compare_eq_eq.1 hoffset

theorem Position.compare_swap (p q : Position) : (compare p q).swap = compare q p := by
  rw [compare_eq, compare_eq, Ordering.swap_then, Ordering.swap_then, Int.compare_swap, Int.compare_swap,
    Int.compare_swap]

/-! ### Going over characters -/

namespace LineColumn

/-- Earlier line, or the same line and an earlier column. -/
def Lt (a b : LineColumn) : Prop := a.line < b.line ∨ a.line = b.line ∧ a.column < b.column

/-- Line and column of the last character of `t`, when `before` is the entry of the character in front of it. -/
def after (before : LineColumn) (t : Text) : LineColumn := t.foldl next before

variable {a b c before : LineColumn}

theorem Lt.ne (h : a.Lt b) : a ≠ b := by
  rintro rfl
  unfold Lt at h
  omega

theorem Lt.trans_le (hab : a.Lt b) (hbc : b.Le c) : a.Lt c := by
  unfold Lt Le at *
  omega

theorem Le.trans_lt (hab : a.Le b) (hbc : b.Lt c) : a.Lt c := by
  unfold Lt Le at *
  omega

theorem lt_next (before : LineColumn) (c : Char) : before.Lt (before.next c) := by
  unfold Lt next
  split
  · left
    show before.line < before.line + 1
    omega
  · right
    show before.line = before.line ∧ before.column < before.column + 1
    omega

theorem after_append (before : LineColumn) (s t : Text) : before.after (s ++ t) = (before.after s).after t :=
  List.foldl_append

theorem le_after (before : LineColumn) (t : Text) : before.Le (before.after t) := by
  induction t generalizing before with
  | nil => exact .refl _
  | cons c cs ih => exact (le_next before c).trans (ih _)

theorem lt_after {t : Text} (h : t ≠ []) (before : LineColumn) : before.Lt (before.after t) := by
  cases t with
  | nil => exact absurd rfl h
  | cons c cs => exact (lt_next before c).trans_le (le_after _ cs)

theorem line_after (before : LineColumn) (t : Text) : (before.after t).line = before.line + t.count '\n' := by
  induction t generalizing before with
  | nil => simp [after]
  | cons c cs ih =>
    have hcs : (before.after (c :: cs)).line = (before.next c).line + cs.count '\n' := ih _
    rw [hcs, List.count_cons]
    by_cases hc : c = '\n' <;> simp [next, hc]
    omega

theorem column_after {t : Text} (h : '\n' ∉ t) (before : LineColumn) :
    (before.after t).column = before.column + t.length := by
  induction t generalizing before with
  | nil => simp [after]
  | cons c cs ih =>
    obtain ⟨hc, hcs⟩ := not_or.1 (mt List.mem_cons.2 h)
    have htail : (before.after (c :: cs)).column = (before.next c).column + cs.length := ih hcs _
    have hnext : (before.next c).column = before.column + 1 := by
      rw [next, if_neg (Ne.symm hc)]
    rw [htail, hnext, List.length_cons]
    omega

theorem column_after_break {t : Text} (h : '\n' ∉ t) (before : LineColumn) (s : Text) :
    (before.after (s ++ '\n' :: t)).column = 1 + t.length := by
  rw [after_append]
  exact column_after h ((before.after s).next '\n')

end LineColumn

/-! ### Bytes of a character -/

namespace Text

/-- The byte at `offset` is one of the character with index `i`. -/
structure InCharacter (t : Text) (i offset : Nat) : Prop where
  lt_length : i < t.length
  le : t.offsetOfIndex i ≤ offset
  lt : offset < t.offsetOfIndex (i + 1)

/-- The last line feed among the characters up to index `i` has the index `j`. -/
structure IsLastBreak (t : Text) (i j : Nat) : Prop where
  le : j ≤ i
  isBreak : t[j]? = some '\n'
  last : ∀ k, j < k → k ≤ i → t[k]? ≠ some '\n'

variable {t : Text} {i j offset : Nat}

instance : Decidable (InCharacter t i offset) :=
  decidable_of_iff (i < t.length ∧ t.offsetOfIndex i ≤ offset ∧ offset < t.offsetOfIndex (i + 1))
    ⟨fun ⟨h, hle, hlt⟩ => ⟨h, hle, hlt⟩, fun h => ⟨h.lt_length, h.le, h.lt⟩⟩

/-- A beginning of a text within a longer one. -/
theorem take_eq_append_drop (t : Text) {m n : Nat} (h : m ≤ n) : t.take n = t.take m ++ (t.take n).drop m := by
  have htake : t.take m = (t.take n).take m := by
    rw [List.take_take, Nat.min_eq_left h]
  rw [htake, List.take_append_drop]

theorem not_mem_drop_take {m n : Nat} {c : Char} (h : ∀ k, m ≤ k → k < n → t[k]? ≠ some c) :
    c ∉ (t.take n).drop m := by
  intro hmem
  obtain ⟨k, hk, hchar⟩ := List.mem_iff_getElem.1 hmem
  rw [List.length_drop, List.length_take] at hk
  apply h (m + k) (by omega) (by omega)
  rw [List.getElem_drop, List.getElem_take] at hchar
  rw [List.getElem?_eq_getElem (by omega), hchar]

/-- Every byte of a text belongs to a character. -/
theorem exists_inCharacter (h : offset < t.byteLength) : ∃ i, InCharacter t i offset := by
  induction t generalizing offset with
  | nil => exact absurd h (Nat.not_lt_zero _)
  | cons c cs ih =>
    rw [byteLength_cons] at h
    by_cases hc : offset < c.utf8Size
    · refine ⟨0, by simp, Nat.zero_le _, ?_⟩
      simpa [offsetOfIndex] using hc
    · have hrest : offset - c.utf8Size < byteLength cs := by omega
      obtain ⟨i, hi, hle, hlt⟩ := ih hrest
      refine ⟨i + 1, by simpa using hi, ?_, ?_⟩
      · rw [offsetOfIndex]
        omega
      · rw [offsetOfIndex]
        omega

/-- Characters stand in the order of their bytes. -/
theorem InCharacter.index_le {other : Nat} (h : InCharacter t i offset) (h' : InCharacter t j other)
    (hle : offset ≤ other) : i ≤ j := by
  by_contra hlt
  have hmono := offsetOfIndex_mono t (show j + 1 ≤ i by omega)
  have := h.le
  have := h'.lt
  omega

/-- A text up to a character, the character and the rest. -/
theorem InCharacter.exists_split (h : InCharacter t i offset) :
    ∃ before c rest, t = before ++ c :: rest ∧ before.length = i ∧ t.take (i + 1) = before ++ [c] ∧
      ∃ k, offset = byteLength before + k ∧ k < c.utf8Size := by
  have hlength := h.lt_length
  have hsplit : t = t.take i ++ t[i] :: t.drop (i + 1) := by
    rw [← List.drop_eq_getElem_cons hlength, List.take_append_drop]
  have htake : t.take (i + 1) = t.take i ++ [t[i]] := by
    rw [List.take_succ_eq_append_getElem hlength]
  have hle := h.le
  have hlt := h.lt
  rw [offsetOfIndex_eq_byteLength] at hle hlt
  rw [htake, byteLength_append, byteLength_cons, byteLength_nil] at hlt
  refine ⟨t.take i, t[i], t.drop (i + 1), hsplit, ?_, htake, offset - byteLength (t.take i), by omega, by omega⟩
  rw [List.length_take]
  omega

end Text

namespace PositionTable

open Text

variable {t : Text} {i a b : Nat}

/-! ### The entries of characters -/

/-- Behind a beginning of the text the table goes on as a table of the rest. -/
theorem getElem?_entriesFrom_append (before : LineColumn) (s t : Text) (k : Nat) :
    (entriesFrom before (s ++ t))[s.byteLength + k]? = (entriesFrom (before.after s) t)[k]? := by
  induction s generalizing before with
  | nil => simp [LineColumn.after]
  | cons c cs ih =>
    have hcs := ih (before.next c)
    have hindex : Text.byteLength (c :: cs) + k - c.utf8Size = Text.byteLength cs + k := by
      rw [byteLength_cons]
      omega
    rw [List.cons_append, entriesFrom, List.getElem?_append_right (by simp; omega), List.length_replicate, hindex, hcs]
    rfl

theorem lineColumn_of_inCharacter (h : InCharacter t i a) :
    (ofText t).lineColumn a = LineColumn.after ⟨1, 0⟩ (t.take (i + 1)) := by
  obtain ⟨before, c, rest, rfl, -, htake, k, rfl, hk⟩ := h.exists_split
  have hentry := getElem?_entriesFrom (t := before ++ c :: rest) (a := before.byteLength + k)
    (by simp; omega)
  rw [getElem?_entriesFrom_append, entriesFrom, List.getElem?_append_left (by simpa using hk),
    List.getElem?_replicate_of_lt hk] at hentry
  rw [← Option.some.inj hentry, htake, LineColumn.after_append]
  rfl

theorem lineColumn_byteLength (t : Text) : (ofText t).lineColumn t.byteLength =
    ⟨(LineColumn.after ⟨1, 0⟩ t).line, (LineColumn.after ⟨1, 0⟩ t).column + 1⟩ := by
  have hentry := getElem?_entriesFrom (t := t) (Nat.le_refl _)
  have hend := getElem?_entriesFrom_append ⟨1, 0⟩ t [] 0
  rw [List.append_nil, Nat.add_zero, hentry] at hend
  exact Option.some.inj hend

/-! ### Counting -/

theorem column_of_not_break (h : InCharacter t i a) (hbreak : ∀ j ≤ i, t[j]? ≠ some '\n') :
    ((ofText t).lineColumn a).column = i + 1 := by
  have hnot : '\n' ∉ (t.take (i + 1)).drop 0 := not_mem_drop_take fun k _ hk => hbreak k (by omega)
  have hlength := h.lt_length
  rw [List.drop_zero] at hnot
  rw [lineColumn_of_inCharacter h, LineColumn.column_after hnot, List.length_take]
  show (0 : Int) + (min (i + 1) t.length : Nat) = i + 1
  omega

theorem column_of_lastBreak {j : Nat} (h : InCharacter t i a) (hlast : IsLastBreak t i j) :
    ((ofText t).lineColumn a).column = i - j + 1 := by
  have hlength := h.lt_length
  have hji := hlast.le
  have hj : j < t.length := by omega
  have hbreak : t[j] = '\n' := by
    have hget := hlast.isBreak
    rw [List.getElem?_eq_getElem hj] at hget
    exact Option.some.inj hget
  -- the characters behind the line feed, up to index `i`
  have hsplit : t.take (i + 1) = t.take j ++ '\n' :: (t.take (i + 1)).drop (j + 1) := by
    have hsucc := take_eq_append_drop t (show j + 1 ≤ i + 1 by omega)
    rw [List.take_succ_eq_append_getElem hj, hbreak, List.append_assoc] at hsucc
    exact hsucc
  have hnot : '\n' ∉ (t.take (i + 1)).drop (j + 1) :=
    not_mem_drop_take fun k hk hk' => hlast.last k (by omega) (by omega)
  rw [lineColumn_of_inCharacter h, hsplit, LineColumn.column_after_break hnot, List.length_drop, List.length_take]
  omega

/-- The end of the text has one column more than its last character. -/
theorem column_byteLength (h : InCharacter t (t.length - 1) a) :
    ((ofText t).lineColumn t.byteLength).column = ((ofText t).lineColumn a).column + 1 := by
  have hlength := h.lt_length
  have htake : t.take (t.length - 1 + 1) = t := List.take_of_length_le (by omega)
  rw [lineColumn_byteLength, lineColumn_of_inCharacter h, htake]

/-! ### Order -/

/-- Positions inside a text compare as their offsets do. -/
theorem compare_position (ha : a ≤ t.byteLength) (hb : b ≤ t.byteLength) :
    compare ((ofText t).position a) ((ofText t).position b) = compare a b := by
  have hlt : ∀ {a b : Nat}, a < b → b ≤ t.byteLength →
      compare ((ofText t).position a) ((ofText t).position b) = .lt := by
    intro a b hab hb
    have hle := isLE_compare_position (Nat.le_of_lt hab) hb
    cases hcompare : compare ((ofText t).position a) ((ofText t).position b) with
    | lt => rfl
    | eq =>
      have hoffset : (a : Int) = b := Position.eq_of_compare hcompare
      omega
    | gt =>
      rw [hcompare] at hle
      cases hle
  rcases Nat.lt_trichotomy a b with hab | rfl | hab
  · rw [hlt hab hb, Nat.compare_eq_lt.2 hab]
  · rw [Nat.compare_eq_eq.2 rfl, Position.compare_eq, Int.compare_eq_eq.2 rfl, Int.compare_eq_eq.2 rfl,
      Int.compare_eq_eq.2 rfl]
    rfl
  · rw [← Position.compare_swap, hlt hab ha, Nat.compare_eq_gt.2 hab]
    rfl

/-- From one character to a later one, or to the end of the text, the line or the column grows. -/
private theorem lineColumn_lt_of_not_same (hab : a < b) (hb : b ≤ t.byteLength)
    (hnot : ¬∃ i, InCharacter t i a ∧ InCharacter t i b) :
    ((ofText t).lineColumn a).Lt ((ofText t).lineColumn b) := by
  obtain ⟨i, hi⟩ := exists_inCharacter (show a < t.byteLength by omega)
  rw [lineColumn_of_inCharacter hi]
  rcases Nat.lt_or_eq_of_le hb with hlt | rfl
  · obtain ⟨j, hj⟩ := exists_inCharacter hlt
    have hle := hi.index_le hj (Nat.le_of_lt hab)
    have hne : i ≠ j := by
      rintro rfl
      exact hnot ⟨i, hi, hj⟩
    have hlength := hj.lt_length
    have htake := take_eq_append_drop t (show i + 1 ≤ j + 1 by omega)
    have hrest : (t.take (j + 1)).drop (i + 1) ≠ [] := by
      apply List.ne_nil_of_length_pos
      rw [List.length_drop, List.length_take]
      omega
    rw [lineColumn_of_inCharacter hj, htake, LineColumn.after_append]
    exact LineColumn.lt_after hrest _
  · have hend : (LineColumn.after ⟨1, 0⟩ t).Lt ((ofText t).lineColumn t.byteLength) := by
      rw [lineColumn_byteLength]
      exact Or.inr ⟨rfl, Int.lt_succ _⟩
    have hsplit := List.take_append_drop (i + 1) t
    have hle : (LineColumn.after ⟨1, 0⟩ (t.take (i + 1))).Le (LineColumn.after ⟨1, 0⟩ t) := by
      conv => rhs; rw [← hsplit]
      rw [LineColumn.after_append]
      exact LineColumn.le_after _ _
    exact hle.trans_lt hend

/-- Two offsets share line and column when they lie in the same character. -/
theorem lineColumn_eq_iff (ha : a ≤ t.byteLength) (hb : b ≤ t.byteLength) :
    (ofText t).lineColumn a = (ofText t).lineColumn b ↔ a = b ∨ ∃ i, InCharacter t i a ∧ InCharacter t i b := by
  constructor
  · intro h
    by_contra hnot
    obtain ⟨hne, hsame⟩ := not_or.1 hnot
    rcases Nat.lt_or_gt_of_ne hne with hlt | hlt
    · exact (lineColumn_lt_of_not_same hlt hb hsame).ne h
    · have hsame' : ¬∃ i, InCharacter t i b ∧ InCharacter t i a := by
        rintro ⟨i, hi, hj⟩
        exact hsame ⟨i, hj, hi⟩
      exact (lineColumn_lt_of_not_same hlt ha hsame').ne h.symm
  · rintro (rfl | ⟨i, hi, hj⟩)
    · rfl
    · rw [lineColumn_of_inCharacter hi, lineColumn_of_inCharacter hj]

theorem isUnknown_lineColumn_iff (offset : Int) :
    ((ofText t).lineColumn offset).isUnknown = true ↔ ¬(0 ≤ offset ∧ offset ≤ t.byteLength) := by
  by_cases h : 0 ≤ offset ∧ offset ≤ t.byteLength
  · obtain ⟨n, rfl⟩ := Int.eq_ofNat_of_zero_le h.1
    have hknown : ((ofText t).lineColumn n).isUnknown = false := isUnknown_position (Int.ofNat_le.1 h.2)
    simp [hknown, h]
  · simp only [h, not_false_iff, iff_true]
    apply decide_eq_true
    unfold lineColumn
    split
    · rfl
    · have hlength : (ofText t).entries.size = t.byteLength + 1 := by
        simp [ofText, length_entriesFrom]
      rw [Array.getElem?_eq_none (by omega)]
      rfl

/-- The table of a text counts: the line is one more than the line feeds up to and with the character, and the column
is the number of characters up to and with it, from the last of these line feeds on.  Offsets outside the text are
unknown; those inside are in the order of their positions, and apart by line or column unless they lie in one
character. -/
theorem positions_by_counting (t : Text) :
    (∀ offset : Int, ((ofText t).lineColumn offset).isUnknown = true ↔ ¬(0 ≤ offset ∧ offset ≤ t.byteLength)) ∧
    (∀ i offset, InCharacter t i offset →
      ((ofText t).lineColumn offset).line = 1 + (t.take (i + 1)).count '\n' ∧
      ((∀ j ≤ i, t[j]? ≠ some '\n') → ((ofText t).lineColumn offset).column = i + 1) ∧
      ∀ j, IsLastBreak t i j → ((ofText t).lineColumn offset).column = i - j + 1) ∧
    (((ofText t).lineColumn t.byteLength).line = 1 + t.count '\n' ∧
      (t = [] → ((ofText t).lineColumn t.byteLength).column = 1) ∧
      ∀ offset, InCharacter t (t.length - 1) offset →
        ((ofText t).lineColumn t.byteLength).column = ((ofText t).lineColumn offset).column + 1) ∧
    ∀ a b : Nat, a ≤ t.byteLength → b ≤ t.byteLength →
      compare ((ofText t).position a) ((ofText t).position b) = compare a b ∧
      ((ofText t).lineColumn a = (ofText t).lineColumn b ↔ a = b ∨ ∃ i, InCharacter t i a ∧ InCharacter t i b) := by
  refine ⟨isUnknown_lineColumn_iff, ?_, ⟨?_, ?_, ?_⟩, ?_⟩
  · intro i offset h
    refine ⟨?_, column_of_not_break h, fun j => column_of_lastBreak h⟩
    rw [lineColumn_of_inCharacter h, LineColumn.line_after]
  · rw [lineColumn_byteLength]
    exact LineColumn.line_after ⟨1, 0⟩ t
  · rintro rfl
    rfl
  · intro offset
    exact column_byteLength
  · intro a b ha hb
    exact ⟨compare_position ha hb, lineColumn_eq_iff ha hb⟩

/-- The line feed behind `é` and the `b` behind it: the two bytes of `é` share their column, the line feed is the first
column of line 2, and the end of the text comes last. -/
theorem positions_by_counting_of_two_lines :
    let table := ofText ['é', '\n', 'b']
    table.lineColumn 0 = table.lineColumn 1 ∧ (table.lineColumn 2).line = 2 ∧ (table.lineColumn 3).column = 2 ∧
      (table.lineColumn 4).column = 3 ∧ compare (table.position 1) (table.position 4) = .lt := by
  intro table
  obtain ⟨-, hcharacters, ⟨-, -, hend⟩, horder⟩ := positions_by_counting ['é', '\n', 'b']
  have hb : InCharacter ['é', '\n', 'b'] 2 3 := by decide
  have hbreak : IsLastBreak ['é', '\n', 'b'] 2 1 := by
    refine ⟨by decide, rfl, ?_⟩
    intro k hk hk'
    obtain rfl : k = 2 := by omega
    decide
  have hcolumn := (hcharacters 2 3 hb).2.2 1 hbreak
  refine ⟨?_, (hcharacters 1 2 (by decide)).1, hcolumn, ?_, (horder 1 4 (by decide) (by decide)).1⟩
  · exact (horder 0 1 (by decide) (by decide)).2.2 (Or.inr ⟨0, by decide, by decide⟩)
  · have := hend 3 hb
    rw [hcolumn] at this
    exact this

end PositionTable

end LocatedYaml
