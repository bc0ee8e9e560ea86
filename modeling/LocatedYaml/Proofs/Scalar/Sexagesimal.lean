import LocatedYaml.Proofs.Scalar.Fraction
import Mathlib.Data.List.Induction

/-!
# Sexagesimal integers

`SexagesimalSpelling` is the grammar of integers in base 60.  Up to the largest integer the magnitude is read exactly;
a spelling of a larger one is a string (`resolution_of_sexagesimals`), also that of the least integer, whose magnitude
is not an integer itself.
-/

namespace LocatedYaml.Scalar

/-! ### The grammar -/

/-- A group behind a colon: one or two digits, for a number from 0 to 59. -/
structure MinorGroup (t : Text) : Prop where
  row : Row isDecimalDigit t
  length_le : t.length ≤ 2
  le : placeValue 10 t ≤ 59

instance (t : Text) : Decidable (MinorGroup t) :=
  decidable_of_iff (Row isDecimalDigit t ∧ t.length ≤ 2 ∧ placeValue 10 t ≤ 59)
    ⟨fun ⟨h, hlength, hle⟩ => ⟨h, hlength, hle⟩, fun h => ⟨h.row, h.length_le, h.le⟩⟩

/-- An integer in base 60: a sign, a group that begins with a digit but zero, and groups behind colons. -/
structure SexagesimalSpelling where
  sign : Text
  negative : Bool
  first : Char
  rest : Text
  minors : List Text
  isSign : Sign sign negative
  isDigit_first : isDecimalDigit first
  first_ne : first ≠ '0'
  isDigit_rest : ∀ c ∈ rest, isDecimalDigit c ∨ c = '_'
  minors_ne_nil : minors ≠ []
  minor_of_mem : ∀ group ∈ minors, MinorGroup group

namespace SexagesimalSpelling

variable (s : SexagesimalSpelling)

def groups : List Text := (s.first :: s.rest) :: s.minors

/-- The spelling without its sign. -/
def body : Text := [':'].intercalate s.groups

def text : Text := s.sign ++ s.body

/-- The groups are digits in base 60. -/
def magnitude : Nat := Nat.ofDigits 60 (s.groups.reverse.map (placeValue 10))

def value : Int := signed s.negative s.magnitude

end SexagesimalSpelling

/-! ### Groups -/

theorem MinorGroup.isMinor {t : Text} (h : MinorGroup t) : Sexagesimal.isMinor t := by
  have hunderscores := h.row.withoutUnderscores rfl
  obtain ⟨⟨hne, hdigits⟩, hlength, hvalue⟩ := h
  match t with
  | [] => exact absurd rfl hne
  | [d] => exact hdigits d List.mem_cons_self
  | [d, e] =>
    have hd := hdigits d (by simp)
    have he := hdigits e (by simp)
    have hsum : placeValue 10 [d, e] = digitValue e + 10 * digitValue d := by
      rw [placeValue, hunderscores]
      simp [Nat.ofDigits]
    rw [hsum, digitValue_of_isDecimalDigit hd, digitValue_of_isDecimalDigit he] at hvalue
    have hd' := isDecimalDigit_iff.1 hd
    have hfive : d.toNat ≤ 53 := by omega
    simp only [Sexagesimal.isMinor, Bool.and_eq_true, decide_eq_true_eq, le_iff_toNat_le, Char.reduceToNat]
    exact ⟨⟨hd'.1, hfive⟩, he⟩
  | _ :: _ :: _ :: _ => simp at hlength

namespace Sexagesimal

/-- The number, unless it lies beyond the integers. -/
def checked (n : Nat) : Option Nat := if (n : Int) ≤ maxInt then some n else none

theorem checked_of_le {n : Nat} (h : (n : Int) ≤ maxInt) : checked n = some n := if_pos h

theorem checked_of_lt {n : Nat} (h : maxInt < n) : checked n = none := if_neg (Int.not_le.2 h)

private theorem checked_step (n digit : Nat) :
    ((checked digit).bind fun digit => (checked (n * 60)).bind fun multiple => checked (multiple + digit)) =
      checked (n * 60 + digit) := by
  rcases lt_or_ge maxInt digit with hdigit | hdigit
  · rw [checked_of_lt hdigit, Option.bind_none, checked_of_lt (by omega)]
  · rw [checked_of_le hdigit, Option.bind_some]
    rcases lt_or_ge maxInt (n * 60 : Nat) with hmultiple | hmultiple
    · rw [checked_of_lt hmultiple, Option.bind_none, checked_of_lt (by omega)]
    · rw [checked_of_le hmultiple, Option.bind_some]

/-- The bound may as well be checked all the way: for each group, for each multiple of 60 and for each sum. -/
theorem groupsValue?_eq_foldlM (groups : List Text) :
    groupsValue? groups = groups.foldlM (fun n group => do
      let digit ← checked (placeValue 10 group)
      let multiple ← checked (n * 60)
      checked (multiple + digit)) 0 := by
  simp only [Option.bind_eq_bind, checked_step]
  induction groups using List.reverseRecOn with
  | nil => rfl
  | append_singleton groups group ih =>
    have hvalue : groupsValue (groups ++ [group]) = groupsValue groups * 60 + placeValue 10 group := by
      rw [groupsValue, List.foldl_append, ← digitsValue_eq_placeValue]
      rfl
    rw [List.foldlM_append, ← ih]
    show checked _ = (checked (groupsValue groups)).bind _
    rw [hvalue]
    rcases lt_or_ge maxInt (groupsValue groups) with h | h
    · rw [checked_of_lt h, Option.bind_none, checked_of_lt (by omega)]
    · rw [checked_of_le h, Option.bind_some, List.foldlM_cons]
      exact (bind_pure _).symm

end Sexagesimal

namespace SexagesimalSpelling

variable (s : SexagesimalSpelling)

theorem groupsValue_groups : Sexagesimal.groupsValue s.groups = s.magnitude := by
  simp only [Sexagesimal.groupsValue, digitsValue_eq_placeValue]
  exact foldl_eq_ofDigits 60 (placeValue 10) s.groups

theorem isMajor : Sexagesimal.isMajor (fun c => isDecimalDigit c && c ≠ '0') (s.first :: s.rest) := by
  have hrest : ∀ c ∈ s.rest, Numeral.orUnderscore isDecimalDigit c :=
    fun c hc => orUnderscore_iff.2 (s.isDigit_rest c hc)
  simpa [Sexagesimal.isMajor, s.isDigit_first, s.first_ne] using hrest

theorem colon_not_mem : ∀ group ∈ s.groups, ':' ∉ group := by
  refine List.forall_mem_cons.2 ⟨fun hmem => ?_, fun group hgroup hmem => ?_⟩
  · rcases List.mem_cons.1 hmem with h | h
    · exact absurd (h ▸ s.isDigit_first) (by decide)
    · exact absurd (s.isDigit_rest _ h) (by decide)
  · exact absurd ((s.minor_of_mem group hgroup).row.isDigit _ hmem) (by decide)

theorem readInt?_body : Sexagesimal.readInt? s.body = some s.groups := by
  have hsplit : s.body.splitOn ':' = s.groups :=
    List.splitOn_intercalate ':' s.colon_not_mem (List.cons_ne_nil _ _)
  obtain ⟨minor, minors, hminors⟩ := List.exists_cons_of_ne_nil s.minors_ne_nil
  have hminor : (minor :: minors).all Sexagesimal.isMinor := by
    rw [← hminors]
    exact List.all_eq_true.2 fun group hgroup => (s.minor_of_mem group hgroup).isMinor
  rw [Sexagesimal.readInt?, Sexagesimal.groups?, hsplit, groups, hminors]
  exact if_pos ⟨s.isMajor, hminor⟩

/-! ### Other forms -/

theorem exists_body : ∃ tail, s.body = s.first :: (s.rest ++ ':' :: tail) := by
  obtain ⟨minor, minors, hminors⟩ := List.exists_cons_of_ne_nil s.minors_ne_nil
  refine ⟨[':'].intercalate (minor :: minors), ?_⟩
  rw [body, groups, hminors, List.intercalate_cons_cons]
  simp

theorem isDigit_of_mem_body : ∀ c ∈ s.body, c = ':' ∨ Numeral.orUnderscore isDecimalDigit c := by
  have hlead : ∀ c, (isDecimalDigit c && c ≠ '0' : Bool) → isDecimalDigit c := fun c hc => by
    rw [Bool.and_eq_true] at hc
    exact hc.1
  exact fun c hc => Sexagesimal.isDigit_of_mem_of_groups? hlead s.readInt?_body hc

theorem splitSign_text : splitSign s.text = (s.negative, s.body) := by
  obtain ⟨tail, htail⟩ := s.exists_body
  rw [text, htail]
  exact splitSign_append_digit s.isSign s.isDigit_first

theorem read1_1?_text : Numeral.read1_1? s.text = none := by
  obtain ⟨tail, htail⟩ := s.exists_body
  have hcolon : Numeral.orUnderscore isDecimalDigit ':' = false := rfl
  simp only [Numeral.read1_1?, s.splitSign_text, htail]
  simp [s.first_ne, s.isDigit_first, hcolon]

theorem groupsValue?_groups :
    Sexagesimal.groupsValue? s.groups = if s.magnitude < 2 ^ 63 then some s.magnitude else none := by
  have hrange : (s.magnitude : Int) ≤ maxInt ↔ s.magnitude < 2 ^ 63 := by
    rw [maxInt]
    omega
  simp only [Sexagesimal.groupsValue?, s.groupsValue_groups, hrange]

theorem int?_text : int? .v1_1 s.text = if s.magnitude < 2 ^ 63 then some (.int s.value) else none := by
  simp only [int?, s.read1_1?_text, s.splitSign_text, s.readInt?_body, s.groupsValue?_groups, Option.bind_eq_bind,
    Option.bind_some]
  by_cases h : s.magnitude < 2 ^ 63
  · simp only [if_pos h]
    rfl
  · simp only [if_neg h]
    rfl

theorem dot_not_mem_body : '.' ∉ s.body := fun hmem => absurd (s.isDigit_of_mem_body _ hmem) (by decide)

theorem magnitude?_body : magnitude? .v1_1 s.body = none := by
  obtain ⟨tail, htail⟩ := s.exists_body
  have hfloat : Sexagesimal.readFloat? s.body = none := by
    have hall : ∀ c ∈ s.body, (c ≠ '.' : Bool) := fun c hc =>
      decide_eq_true fun heq => s.dot_not_mem_body (heq ▸ hc)
    rw [Sexagesimal.readFloat?, List.span_eq_takeWhile_dropWhile, List.dropWhile_eq_nil_iff.2 hall]
  have hfraction : Fraction.read1_1? s.body = none := by
    have hrow : ∀ c ∈ s.first :: s.rest, Numeral.orUnderscore isDecimalDigit c :=
      List.forall_mem_cons.2
        ⟨orUnderscore_iff.2 (Or.inl s.isDigit_first), fun c hc => orUnderscore_iff.2 (s.isDigit_rest c hc)⟩
    have hcolon : ∀ c, (':' :: tail).head? = some c → Numeral.orUnderscore isDecimalDigit c = false := by
      rintro c ⟨⟩
      rfl
    obtain ⟨-, hdrop⟩ := span_of_head? hrow hcolon
    rw [Fraction.read1_1?, Fraction.read?, htail, ← List.cons_append, hdrop]
    rfl
  rw [magnitude?, hfloat, hfraction]
  rfl

theorem float?_text : float? .v1_1 s.text = none := by
  rw [text, float?_of_dot_not_mem s.isSign s.splitSign_text s.dot_not_mem_body, s.magnitude?_body, Option.map_none]

theorem word_text : isNull s.text = false ∧ bool? .v1_1 s.text = none := by
  obtain ⟨tail, htail⟩ := s.exists_body
  have hcolon : ':' ∈ s.text := by simp [text, htail]
  have hwords : ∀ word ∈ [] :: (nullWords ++ (trueWords .v1_1 ++ falseWords .v1_1)), ':' ∉ word := by decide
  have hnot : s.text ∉ [] :: (nullWords ++ (trueWords .v1_1 ++ falseWords .v1_1)) := fun h => hwords _ h hcolon
  simp only [List.mem_cons, List.mem_append, not_or] at hnot
  obtain ⟨hempty, hnull, htrue, hfalse⟩ := hnot
  rw [bool?, if_neg htrue, if_neg hfalse]
  exact ⟨by simp [isNull, hempty, hnull], rfl⟩

/-- A timestamp begins with a digit and has a `-` in it. -/
theorem timestamp?_text : timestamp? .v1_1 s.text = none := by
  rw [Option.eq_none_iff_forall_ne_some]
  intro v h
  obtain ⟨-, hform, -⟩ := eq_of_timestamp? h
  obtain ⟨year, rest, htext, hlength, hyear⟩ := exists_year_of_isTimestamp hform
  obtain ⟨c, cs, rfl⟩ := List.exists_cons_of_length_eq_add_one hlength
  have hc := hyear c List.mem_cons_self
  have hhyphen : '-' ∉ s.body := fun hmem => absurd (s.isDigit_of_mem_body _ hmem) (by decide)
  rw [text] at htext
  rcases s.isSign.text_eq with h | h | h
  · rw [h, List.nil_append] at htext
    exact hhyphen (htext ▸ by simp)
  · rw [h] at htext
    obtain ⟨rfl, -⟩ := List.cons.inj htext
    cases hc
  · rw [h] at htext
    obtain ⟨rfl, -⟩ := List.cons.inj htext
    cases hc

end SexagesimalSpelling

/-- Up to the largest integer the magnitude of a sexagesimal integer is read exactly; a larger one makes it a string. -/
theorem resolution_of_sexagesimals (s : SexagesimalSpelling) :
    resolvePlain .v1_1 s.text = if s.magnitude < 2 ^ 63 then .int s.value else .string s.text := by
  have hint := s.int?_text
  split
  · rename_i h
    rw [if_pos h] at hint
    exact resolvePlain_eq_iff.2 (.int hint)
  · rename_i h
    rw [if_neg h] at hint
    obtain ⟨hnull, hbool⟩ := s.word_text
    exact resolvePlain_eq_iff.2 (.string hnull hbool hint s.float?_text s.timestamp?_text)

/-- At both ends of the range: the first integer behind it, and the least one in it. -/
theorem sexagesimals_at_range_ends :
    (∃ s : SexagesimalSpelling, s.text = "15:15:13:34:32:31:55:20:15:30:08".toList ∧ s.value = 2 ^ 63 ∧
      resolvePlain .v1_1 s.text = .string s.text) ∧
    ∃ s : SexagesimalSpelling, s.text = "-15:15:13:34:32:31:55:20:15:30:08".toList ∧ s.value = -2 ^ 63 ∧
      resolvePlain .v1_1 s.text = .string s.text := by
  let minors := ["15", "13", "34", "32", "31", "55", "20", "15", "30", "08"].map String.toList
  constructor
  · exact ⟨⟨[], false, '1', ['5'], minors, .absent, rfl, by decide, List.forall_mem_singleton.2 (Or.inl rfl),
      by decide, by decide⟩, by decide, by decide, by decide⟩
  · exact ⟨⟨['-'], true, '1', ['5'], minors, .minus, rfl, by decide, List.forall_mem_singleton.2 (Or.inl rfl),
      by decide, by decide⟩, by decide, by decide, by decide⟩

end LocatedYaml.Scalar
