import LocatedYaml.Scalar.Schema
import Mathlib.Data.List.TakeDrop

/-!
# The forms of plain scalars

A plain scalar is tried as null, a truth value, an integer, a float and a timestamp.  The order of the trials makes no
difference, but for integers and floats, which share spellings: no text has two of the other forms (`forms_of_isNull`,
`forms_of_bool?`, `forms_of_timestamp?`).  Words are neither numbers nor timestamps; a timestamp has a `-` behind its
year, where no number has one.

`resolvePlain_eq_iff` says what a plain scalar resolves to by its form alone.
-/

namespace LocatedYaml.Scalar

variable {version : Version} {t : Text} {v : Value}

/-! ### What the forms stand for -/

theorem exists_of_bool? (h : bool? version t = some v) : ∃ b, v = .bool b := by
  unfold bool? at h
  split at h
  · exact ⟨true, (Option.some.inj h).symm⟩
  · split at h
    · exact ⟨false, (Option.some.inj h).symm⟩
    · cases h

/-- The integer that a numeral denotes, whether it lies in the range of integer values or not. -/
def Numeral.toInt (numeral : Numeral) : Int :=
  let magnitude := digitsValue numeral.radix (withoutUnderscores numeral.digits)
  if numeral.negative then -magnitude else magnitude

theorem Numeral.value?_eq (numeral : Numeral) :
    numeral.value? =
      if withoutUnderscores numeral.digits = [] then none
      else if minInt ≤ numeral.toInt ∧ numeral.toInt ≤ maxInt then some (.int numeral.toInt)
      else some (.float numeral.toBinary64) := rfl

theorem Numeral.exists_of_value? {numeral : Numeral} (h : numeral.value? = some v) :
    (∃ n, v = .int n) ∨ ∃ x, v = .float x := by
  rw [value?_eq] at h
  split at h
  · cases h
  · split at h
    · exact Or.inl ⟨_, (Option.some.inj h).symm⟩
    · exact Or.inr ⟨_, (Option.some.inj h).symm⟩

theorem exists_of_int? (h : int? version t = some v) : (∃ n, v = .int n) ∨ ∃ x, v = .float x := by
  cases version with
  | v1_2 =>
    obtain ⟨numeral, -, hvalue⟩ := Option.bind_eq_some_iff.1 h
    exact Numeral.exists_of_value? hvalue
  | v1_1 =>
    simp only [int?] at h
    split at h
    · exact Numeral.exists_of_value? h
    · obtain ⟨groups, -, h⟩ := Option.bind_eq_some_iff.1 h
      obtain ⟨n, -, h⟩ := Option.bind_eq_some_iff.1 h
      exact Or.inl ⟨_, (Option.some.inj h).symm⟩

theorem exists_of_float? (h : float? version t = some v) : ∃ x, v = .float x := by
  simp only [float?] at h
  split at h
  · exact ⟨_, (Option.some.inj h).symm⟩
  · split at h
    · exact ⟨_, (Option.some.inj h).symm⟩
    · obtain ⟨x, -, rfl⟩ := Option.map_eq_some_iff.1 h
      exact ⟨_, rfl⟩

theorem eq_of_timestamp? (h : timestamp? version t = some v) :
    version = .v1_1 ∧ Timestamp.isTimestamp t ∧ v = .timestamp t := by
  unfold timestamp? at h
  split at h
  · rename_i hform
    exact ⟨hform.1, hform.2, (Option.some.inj h).symm⟩
  · cases h

/-! ### Words -/

private theorem mem_words_of_isNull (h : isNull t) : t ∈ [] :: nullWords := by
  rw [isNull, Bool.or_eq_true, decide_eq_true_eq, decide_eq_true_eq] at h
  exact List.mem_cons.2 h

theorem forms_of_isNull (h : isNull t) :
    bool? version t = none ∧ int? version t = none ∧ float? version t = none ∧ timestamp? version t = none := by
  have hwords : ∀ word ∈ [] :: nullWords,
      bool? version word = none ∧ int? version word = none ∧ float? version word = none ∧
        timestamp? version word = none := by
    cases version <;> decide
  exact hwords t (mem_words_of_isNull h)

theorem forms_of_bool? (h : bool? version t = some v) :
    isNull t = false ∧ int? version t = none ∧ float? version t = none ∧ timestamp? version t = none := by
  have hwords : ∀ word ∈ trueWords version ++ falseWords version,
      isNull word = false ∧ int? version word = none ∧ float? version word = none ∧
        timestamp? version word = none := by
    cases version <;> decide
  refine hwords t (List.mem_append.2 ?_)
  unfold bool? at h
  split at h
  · exact Or.inl ‹_›
  · split at h
    · exact Or.inr ‹_›
    · cases h

/-- Numbers and timestamps are no words. -/
theorem not_word_of_form
    (h : (int? version t).isSome ∨ (float? version t).isSome ∨ (timestamp? version t).isSome) :
    isNull t = false ∧ bool? version t = none := by
  constructor
  · cases hnull : isNull t with
    | false => rfl
    | true =>
      obtain ⟨-, hint, hfloat, htimestamp⟩ := @forms_of_isNull version t hnull
      simp [hint, hfloat, htimestamp] at h
  · cases hbool : bool? version t with
    | none => rfl
    | some b =>
      obtain ⟨-, hint, hfloat, htimestamp⟩ := forms_of_bool? hbool
      simp [hint, hfloat, htimestamp] at h

/-! ### Timestamps -/

private theorem exists_of_digits {n : Nat} {rest : Text} (h : Timestamp.digits n t = some rest) :
    ∃ digits, t = digits ++ rest ∧ digits.length = n ∧ ∀ c ∈ digits, isDecimalDigit c := by
  induction n generalizing t with
  | zero => exact ⟨[], Option.some.inj h, rfl, by simp⟩
  | succ n ih =>
    cases t with
    | nil => cases h
    | cons c t =>
      rw [Timestamp.digits] at h
      split at h
      · rename_i hc
        obtain ⟨digits, rfl, rfl, hdigits⟩ := ih h
        exact ⟨c :: digits, rfl, rfl, List.forall_mem_cons.2 ⟨hc, hdigits⟩⟩
      · cases h

private theorem eq_of_char {c : Char} {rest : Text} (h : Timestamp.char c t = some rest) : t = c :: rest := by
  cases t with
  | nil => cases h
  | cons d t =>
    rw [Timestamp.char] at h
    split at h
    · rename_i hd
      rw [hd, Option.some.inj h]
    · cases h

/-- Date and time begin with a year of four digits, and a `-` stands behind it. -/
theorem exists_year_of_isTimestamp (h : Timestamp.isTimestamp t) :
    ∃ year rest, t = year ++ '-' :: rest ∧ year.length = 4 ∧ ∀ c ∈ year, isDecimalDigit c := by
  cases hyear : Timestamp.digits 4 t >>= Timestamp.char '-' with
  | none => simp [Timestamp.isTimestamp, Timestamp.isDate, Timestamp.isDateTime, hyear] at h
  | some rest =>
    obtain ⟨t', hdigits, hchar⟩ := Option.bind_eq_some_iff.1 hyear
    obtain ⟨year, rfl, hlength, hyear⟩ := exists_of_digits hdigits
    exact ⟨year, rest, by rw [eq_of_char hchar], hlength, hyear⟩

/-! ### Numbers have no `-` behind a year -/

private theorem not_mem_of_all {isDigit : Char → Bool} {c : Char} (h : t.all isDigit) (hc : isDigit c = false) :
    c ∉ t := by
  intro hmem
  have hdigit := List.all_eq_true.1 h c hmem
  rw [hc] at hdigit
  cases hdigit

private theorem not_mem_of_isRow {isDigit : Char → Bool} {c : Char} (h : Numeral.isRow isDigit t)
    (hc : isDigit c = false) : c ∉ t := by
  rw [Numeral.isRow, Bool.and_eq_true] at h
  exact not_mem_of_all h.2 hc

private theorem hyphen_not_mem_of_read1_1? {numeral : Numeral} (h : Numeral.read1_1? t = some numeral) :
    '-' ∉ (splitSign t).2 := by
  simp only [Numeral.read1_1?] at h
  generalize (splitSign t).2 = body at h ⊢
  split at h
  · decide
  · split at h
    · simp [not_mem_of_isRow (c := '-') ‹_› rfl]
    · cases h
  · split at h
    · simp [not_mem_of_isRow (c := '-') ‹_› rfl]
    · cases h
  · split at h
    · simp [not_mem_of_isRow (c := '-') ‹_› rfl]
    · cases h
  · rename_i first rest _ _ _ _
    split at h
    · rename_i hrow
      have hfirst : first ≠ '-' := fun heq => by
        rw [heq] at hrow
        cases hrow.1
      simp [hfirst.symm, not_mem_of_all (c := '-') hrow.2 rfl]
    · cases h
  · cases h

/-! ### Sexagesimal groups -/

namespace Sexagesimal

theorem all_of_isMinor (h : isMinor t) : t.all isDecimalDigit := by
  unfold isMinor at h
  split at h
  · simpa using h
  · rename_i d e
    simp only [Bool.and_eq_true, decide_eq_true_eq] at h
    have hd : isDecimalDigit d := by
      simpa [isDecimalDigit] using ⟨h.1.1, Char.le_trans h.1.2 (by decide)⟩
    simp [hd, h.2]
  · cases h

theorem all_of_isMajor {isLead : Char → Bool} (hlead : ∀ c, isLead c → isDecimalDigit c) (h : isMajor isLead t) :
    t.all (Numeral.orUnderscore isDecimalDigit) := by
  cases t with
  | nil => cases h
  | cons d ds =>
    rw [isMajor, Bool.and_eq_true] at h
    simp only [List.all_cons, Bool.and_eq_true]
    exact ⟨by simp [Numeral.orUnderscore, hlead d h.1], h.2⟩

private theorem mem_intercalate {α : Type} {x c : α} {ls : List (List α)} (h : c ∈ [x].intercalate ls) :
    c = x ∨ ∃ l ∈ ls, c ∈ l := by
  induction ls with
  | nil => cases h
  | cons l ls ih =>
    cases ls with
    | nil => exact Or.inr ⟨l, List.mem_cons_self, by simpa using h⟩
    | cons l' ls =>
      rw [List.intercalate_cons_cons, List.append_assoc, List.mem_append, List.mem_append, List.mem_singleton] at h
      rcases h with h | h | h
      · exact Or.inr ⟨l, List.mem_cons_self, h⟩
      · exact Or.inl h
      · exact (ih h).imp_right fun ⟨l'', hmem, hc⟩ => ⟨l'', List.mem_cons_of_mem _ hmem, hc⟩

/-- The characters of a sexagesimal number are digits, underscores and colons. -/
theorem isDigit_of_mem_of_groups? {isLead : Char → Bool} {groups : List Text} {c : Char}
    (hlead : ∀ c, isLead c → isDecimalDigit c) (h : groups? isLead t = some groups) (hc : c ∈ t) :
    c = ':' ∨ Numeral.orUnderscore isDecimalDigit c := by
  rw [groups?] at h
  split at h
  · rename_i major minor minors hgroups
    split at h
    · rename_i hform
      have hsplit : [':'].intercalate (t.splitOn ':') = t := List.intercalate_splitOn ':'
      rw [← hsplit, hgroups] at hc
      refine (mem_intercalate hc).imp_right fun ⟨group, hgroup, hmem⟩ => ?_
      rcases List.mem_cons.1 hgroup with rfl | hgroup
      · exact List.all_eq_true.1 (all_of_isMajor hlead hform.1) c hmem
      · have hdigit := List.all_eq_true.1 (all_of_isMinor (List.all_eq_true.1 hform.2 group hgroup)) c hmem
        simp [Numeral.orUnderscore, hdigit]
    · cases h
  · cases h

end Sexagesimal

private theorem hyphen_not_mem_of_int? (h : int? .v1_1 t = some v) : '-' ∉ (splitSign t).2 := by
  simp only [int?] at h
  split at h
  · exact hyphen_not_mem_of_read1_1? ‹_›
  · obtain ⟨groups, hgroups, -⟩ := Option.bind_eq_some_iff.1 h
    intro hmem
    have hlead : ∀ c, (isDecimalDigit c && c ≠ '0' : Bool) → isDecimalDigit c := fun c hc => by
      rw [Bool.and_eq_true] at hc
      exact hc.1
    exact absurd (Sexagesimal.isDigit_of_mem_of_groups? hlead hgroups hmem) (by decide)

/-! ### Numbers are no timestamps -/

private theorem splitSign_of_isDecimalDigit {c : Char} {rest : Text} (hc : isDecimalDigit c) :
    splitSign (c :: rest) = (false, c :: rest) := by
  unfold splitSign
  split
  · rename_i heq
    rw [(List.cons.inj heq).1] at hc
    cases hc
  · rename_i heq
    rw [(List.cons.inj heq).1] at hc
    cases hc
  · rfl

section Year

variable {year rest : Text} (hyear : ∀ c ∈ year, isDecimalDigit c)

include hyear

private theorem read?_of_year : Fraction.read? (Numeral.orUnderscore isDecimalDigit) (year ++ '-' :: rest) = none := by
  have hrow : ∀ c ∈ year, Numeral.orUnderscore isDecimalDigit c := fun c hc => by
    simp [Numeral.orUnderscore, hyear c hc]
  rw [Fraction.read?, List.dropWhile_append_of_pos hrow]
  rfl

private theorem readFloat?_of_year : Sexagesimal.readFloat? (year ++ '-' :: rest) = none := by
  have hwhole : ∀ c ∈ year, (c ≠ '.' : Bool) := fun c hc => by
    rw [decide_eq_true_eq]
    rintro rfl
    exact absurd (hyear '.' hc) (by decide)
  rw [Sexagesimal.readFloat?, List.span_eq_takeWhile_dropWhile, List.takeWhile_append_of_pos hwhole]
  split
  · rename_i whole fraction heq
    have hmem : '-' ∈ whole := by
      rw [← (Prod.mk.inj heq).1]
      simp
    have hgroups : Sexagesimal.groups? isDecimalDigit whole = none := by
      rw [Option.eq_none_iff_forall_ne_some]
      intro groups hgroups
      exact absurd (Sexagesimal.isDigit_of_mem_of_groups? (fun _ => id) hgroups hmem) (by decide)
    rw [hgroups]
    exact ite_self _
  · rfl

private theorem float?_of_year (hlength : year.length = 4) : float? .v1_1 (year ++ '-' :: rest) = none := by
  cases year with
  | nil => cases hlength
  | cons c cs =>
    have hc := hyear c List.mem_cons_self
    have hdot : c ≠ '.' := by
      rintro rfl
      cases hc
    simp only [float?, List.cons_append, splitSign_of_isDecimalDigit hc]
    rw [if_neg (by simp [infinityWords, hdot]), if_neg (by simp [nanWords, hdot]), ← List.cons_append,
      magnitude?, readFloat?_of_year hyear, Fraction.read1_1?, read?_of_year hyear]
    rfl

private theorem int?_of_year (hlength : year.length = 4) : int? .v1_1 (year ++ '-' :: rest) = none := by
  cases year with
  | nil => cases hlength
  | cons c cs =>
    rw [Option.eq_none_iff_forall_ne_some]
    intro v h
    have hmem := hyphen_not_mem_of_int? h
    rw [List.cons_append, splitSign_of_isDecimalDigit (hyear c List.mem_cons_self)] at hmem
    simp at hmem

end Year

theorem forms_of_timestamp? (h : timestamp? version t = some v) :
    isNull t = false ∧ bool? version t = none ∧ int? version t = none ∧ float? version t = none := by
  obtain ⟨hnull, hbool⟩ := not_word_of_form (Or.inr (Or.inr (Option.isSome_of_mem h)))
  obtain ⟨rfl, htimestamp, -⟩ := eq_of_timestamp? h
  obtain ⟨year, rest, rfl, hlength, hyear⟩ := exists_year_of_isTimestamp htimestamp
  exact ⟨hnull, hbool, int?_of_year hyear hlength, float?_of_year hyear hlength⟩

/-! ### Resolution by form -/

/-- The value that the form of a plain scalar stands for.  Only for a float is it asked what else the text could
be: an integer. -/
inductive FormOf (version : Version) (t : Text) : Value → Prop where
  | null (h : isNull t) : FormOf version t .null
  | bool {b : Bool} (h : bool? version t = some (.bool b)) : FormOf version t (.bool b)
  | int {v : Value} (h : int? version t = some v) : FormOf version t v
  | float {x : Binary64} (hint : int? version t = none) (h : float? version t = some (.float x)) :
    FormOf version t (.float x)
  | timestamp (h : timestamp? version t = some (.timestamp t)) : FormOf version t (.timestamp t)
  | string (hnull : isNull t = false) (hbool : bool? version t = none) (hint : int? version t = none)
    (hfloat : float? version t = none) (htimestamp : timestamp? version t = none) : FormOf version t (.string t)

private theorem formOf_resolvePlain (version : Version) (t : Text) : FormOf version t (resolvePlain version t) := by
  unfold resolvePlain
  split
  · exact .null ‹_›
  · rename_i hnull
    cases hbool : bool? version t with
    | some v =>
      obtain ⟨b, rfl⟩ := exists_of_bool? hbool
      exact .bool hbool
    | none =>
      cases hint : int? version t with
      | some v => exact .int hint
      | none =>
        cases hfloat : float? version t with
        | some v =>
          obtain ⟨x, rfl⟩ := exists_of_float? hfloat
          exact .float hint hfloat
        | none =>
          cases htimestamp : timestamp? version t with
          | some v =>
            obtain ⟨-, -, rfl⟩ := eq_of_timestamp? htimestamp
            exact .timestamp htimestamp
          | none => exact .string (by simpa using hnull) hbool hint hfloat htimestamp

private theorem resolvePlain_of_formOf (h : FormOf version t v) : resolvePlain version t = v := by
  unfold resolvePlain
  cases h with
  | null h => rw [if_pos h]
  | bool h =>
    obtain ⟨hnull, -⟩ := forms_of_bool? h
    simp [hnull, h]
  | int h =>
    obtain ⟨hnull, hbool⟩ := not_word_of_form (Or.inl (Option.isSome_of_mem h))
    simp [hnull, hbool, h]
  | float hint h =>
    obtain ⟨hnull, hbool⟩ := not_word_of_form (Or.inr (Or.inl (Option.isSome_of_mem h)))
    simp [hnull, hbool, hint, h]
  | timestamp h =>
    obtain ⟨hnull, hbool, hint, hfloat⟩ := forms_of_timestamp? h
    simp [hnull, hbool, hint, hfloat, h]
  | string hnull hbool hint hfloat htimestamp => simp [hnull, hbool, hint, hfloat, htimestamp]

/-- A plain scalar resolves to what its form stands for. -/
theorem resolvePlain_eq_iff : resolvePlain version t = v ↔ FormOf version t v :=
  ⟨fun h => h ▸ formOf_resolvePlain version t, resolvePlain_of_formOf⟩

private theorem kind_of_int? (h : int? version t = some v) :
    v ≠ .null ∧ (∀ b, v ≠ .bool b) ∧ ∀ s, v ≠ .timestamp s := by
  rcases exists_of_int? h with ⟨n, rfl⟩ | ⟨x, rfl⟩ <;> simp

theorem resolvePlain_eq_null_iff : resolvePlain version t = .null ↔ isNull t := by
  rw [resolvePlain_eq_iff]
  refine ⟨fun h => ?_, .null⟩
  cases h with
  | null h => exact h
  | int h => exact absurd rfl (kind_of_int? h).1

theorem resolvePlain_eq_bool_iff {b : Bool} :
    resolvePlain version t = .bool b ↔ bool? version t = some (.bool b) := by
  rw [resolvePlain_eq_iff]
  refine ⟨fun h => ?_, .bool⟩
  cases h with
  | bool h => exact h
  | int h => exact absurd rfl ((kind_of_int? h).2.1 b)

theorem resolvePlain_eq_int_iff {n : Int} : resolvePlain version t = .int n ↔ int? version t = some (.int n) := by
  rw [resolvePlain_eq_iff]
  refine ⟨fun h => ?_, .int⟩
  cases h with
  | int h => exact h

/-- Of the texts that are no integers, the floats are those that can be read as floats. -/
theorem resolvePlain_eq_float_iff {x : Binary64} (hint : int? version t = none) :
    resolvePlain version t = .float x ↔ float? version t = some (.float x) := by
  rw [resolvePlain_eq_iff]
  refine ⟨fun h => ?_, .float hint⟩
  cases h with
  | int h =>
    rw [hint] at h
    cases h
  | float _ h => exact h

theorem resolvePlain_eq_timestamp_iff {s : Text} :
    resolvePlain version t = .timestamp s ↔ timestamp? version t = some (.timestamp s) := by
  rw [resolvePlain_eq_iff]
  refine ⟨fun h => ?_, fun h => ?_⟩
  · cases h with
    | timestamp h => exact h
    | int h => exact absurd rfl ((kind_of_int? h).2.2 s)
  · obtain ⟨-, -, heq⟩ := eq_of_timestamp? h
    rw [heq] at h ⊢
    exact .timestamp h

/-- A number is a text that can be read as an integer or as a float. -/
theorem resolvePlain_eq_number_iff :
    ((∃ n, resolvePlain version t = .int n) ∨ ∃ x, resolvePlain version t = .float x) ↔
      (int? version t).isSome ∨ (float? version t).isSome := by
  constructor
  · rintro (⟨n, h⟩ | ⟨x, h⟩)
    · exact Or.inl (Option.isSome_of_mem (resolvePlain_eq_int_iff.1 h))
    · cases resolvePlain_eq_iff.1 h with
      | int h => exact Or.inl (Option.isSome_of_mem h)
      | float _ h => exact Or.inr (Option.isSome_of_mem h)
  · intro h
    cases hint : int? version t with
    | some v =>
      have hplain := resolvePlain_eq_iff.2 (.int hint)
      rcases exists_of_int? hint with ⟨n, rfl⟩ | ⟨x, rfl⟩
      · exact Or.inl ⟨n, hplain⟩
      · exact Or.inr ⟨x, hplain⟩
    | none =>
      obtain ⟨v, hfloat⟩ := Option.isSome_iff_exists.1 (h.resolve_left (by simp [hint]))
      obtain ⟨x, rfl⟩ := exists_of_float? hfloat
      exact Or.inr ⟨x, resolvePlain_eq_iff.2 (.float hint hfloat)⟩

end LocatedYaml.Scalar
