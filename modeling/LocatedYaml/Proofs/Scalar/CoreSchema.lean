import LocatedYaml.Proofs.Scalar.Fraction

/-!
# The core schema

The texts that YAML 1.2 takes for null, for truth values and for numbers; all others are strings
(`resolution_of_core_schema`).  None of them has white space in it, so with white space around them they are strings.
-/

namespace LocatedYaml.Scalar

/-! ### The grammar -/

def nullTexts : List Text := ["", "~", "null", "Null", "NULL"].map String.toList

def boolTexts : Bool → List Text
  | true => ["true", "True", "TRUE"].map String.toList
  | false => ["false", "False", "FALSE"].map String.toList

/-- An integer, a number with a point or an exponent, or a word for infinity or NaN. -/
inductive CoreNumber : Text → Prop
  | integer {t : Text} {n : Int} (h : IntegerSpelling .v1_2 t n) : CoreNumber t
  | fraction {sign mantissa exponent : Text} {negative : Bool} (hsign : Sign sign negative)
      (hmantissa : Mantissa mantissa) (hexponent : Exponent exponent) : CoreNumber (sign ++ (mantissa ++ exponent))
  | infinity {sign word : Text} {negative : Bool} (hsign : Sign sign negative)
      (h : word ∈ [".inf", ".Inf", ".INF"].map String.toList) : CoreNumber (sign ++ word)
  | nan {word : Text} (h : word ∈ [".nan", ".NaN", ".NAN"].map String.toList) : CoreNumber word

/-- A text that is more than a string in YAML 1.2. -/
def CoreForm (t : Text) : Prop := t ∈ nullTexts ∨ (∃ b, t ∈ boolTexts b) ∨ CoreNumber t

variable {t : Text}

/-! ### Recognition -/

theorem isNull_iff : isNull t ↔ t ∈ nullTexts := by
  simp [isNull, nullWords, nullTexts]

theorem bool?_v1_2_eq_some_iff {b : Bool} : bool? .v1_2 t = some (.bool b) ↔ t ∈ boolTexts b := by
  have hdisjoint : ∀ word ∈ boolTexts false, word ∉ boolTexts true := by decide
  have htrue : trueWords .v1_2 = boolTexts true := rfl
  have hfalse : falseWords .v1_2 = boolTexts false := rfl
  rw [bool?, htrue, hfalse]
  cases b <;> grind

theorem isSome_float?_v1_2 : (float? .v1_2 t).isSome ↔
    (splitSign t).2 ∈ infinityWords ∨ t ∈ nanWords ∨ (Fraction.read1_2? (splitSign t).2).isSome := by
  simp only [float?, magnitude?]
  split_ifs <;> simp [*]

theorem Mantissa.ne_sign {mantissa : Text} (h : Mantissa mantissa) (rest : Text) :
    ∀ c, (mantissa ++ rest).head? = some c → c ≠ '-' ∧ c ≠ '+' := by
  have hfirst : ∃ c tail, mantissa = c :: tail ∧ (c = '.' ∨ isDecimalDigit c) := by
    cases h with
    | behindPoint h => exact ⟨'.', _, rfl, Or.inl rfl⟩
    | whole h =>
      obtain ⟨c, tail, rfl⟩ := List.exists_cons_of_ne_nil h.ne_nil
      exact ⟨c, tail, rfl, Or.inr (h.isDigit c List.mem_cons_self)⟩
    | withPoint h _ =>
      obtain ⟨c, tail, rfl⟩ := List.exists_cons_of_ne_nil h.ne_nil
      exact ⟨c, _, rfl, Or.inr (h.isDigit c List.mem_cons_self)⟩
  obtain ⟨c, tail, rfl, hc⟩ := hfirst
  rintro _ ⟨⟩
  constructor
  · rintro rfl
    simp [isDecimalDigit] at hc
  · rintro rfl
    simp [isDecimalDigit] at hc

theorem isSome_number_iff : (int? .v1_2 t).isSome ∨ (float? .v1_2 t).isSome ↔ CoreNumber t := by
  rw [show int? .v1_2 t = (Numeral.read? .v1_2 t).bind Numeral.value? from rfl, isSome_value?_iff, isSome_float?_v1_2]
  constructor
  · rintro (⟨n, h⟩ | h)
    · exact .integer h
    · have hsplit : splitSign t = ((splitSign t).1, (splitSign t).2) := rfl
      obtain ⟨sign, hsign, ht⟩ := exists_sign hsplit
      rcases h with h | h | h
      · rw [ht]
        exact .infinity hsign h
      · exact .nan h
      · obtain ⟨mantissa, exponent, hmantissa, hexponent, hbody⟩ := isSome_read1_2?.1 h
        rw [ht, hbody]
        exact .fraction hsign hmantissa hexponent
  · intro h
    cases h with
    | integer h => exact Or.inl ⟨_, h⟩
    | fraction hsign hmantissa hexponent =>
      rw [splitSign_append hsign (hmantissa.ne_sign _)]
      exact Or.inr (Or.inr (Or.inr (isSome_read1_2?.2 ⟨_, _, hmantissa, hexponent, rfl⟩)))
    | @infinity sign word _ hsign h =>
      have hpoint : ∀ word ∈ infinityWords, word.head? = some '.' := by decide
      have hhead : ∀ c, word.head? = some c → c ≠ '-' ∧ c ≠ '+' := by
        rw [hpoint word h]
        rintro c ⟨⟩
        decide
      rw [splitSign_append hsign hhead]
      exact Or.inr (Or.inl h)
    | nan h => exact Or.inr (Or.inr (Or.inl h))

theorem resolvePlain_v1_2_eq_string_iff : resolvePlain .v1_2 t = .string t ↔ ¬CoreForm t := by
  constructor
  · rintro h (hnull | ⟨b, hbool⟩ | hnumber)
    · rw [resolvePlain_eq_null_iff.2 (isNull_iff.2 hnull)] at h
      cases h
    · rw [resolvePlain_eq_bool_iff.2 (bool?_v1_2_eq_some_iff.2 hbool)] at h
      cases h
    · rcases resolvePlain_eq_number_iff.2 (isSome_number_iff.2 hnumber) with ⟨n, hn⟩ | ⟨x, hx⟩
      · rw [hn] at h
        cases h
      · rw [hx] at h
        cases h
  · intro h
    have hnull : isNull t = false := Bool.eq_false_iff.2 fun hnull => h (Or.inl (isNull_iff.1 hnull))
    have hbool : bool? .v1_2 t = none := by
      rw [Option.eq_none_iff_forall_ne_some]
      intro v hv
      obtain ⟨b, rfl⟩ := exists_of_bool? hv
      exact h (Or.inr (Or.inl ⟨b, bool?_v1_2_eq_some_iff.1 hv⟩))
    have hnumber := mt isSome_number_iff.1 fun hnumber => h (Or.inr (Or.inr hnumber))
    rw [not_or, Option.not_isSome_iff_eq_none, Option.not_isSome_iff_eq_none] at hnumber
    exact resolvePlain_eq_iff.2 (.string hnull hbool hnumber.1 hnumber.2 rfl)

/-! ### The characters of numbers -/

/-- The characters that numbers and the words for infinity and NaN are made of. -/
def isNumberChar (c : Char) : Bool := isHexDigit c || c ∈ "+-.oxinIN".toList

private theorem isNumberChar_of_row {isDigit : Char → Bool} (hhex : ∀ c, isDigit c → isHexDigit c) {digits : Text}
    (h : ∀ c ∈ digits, isDigit c) : ∀ c ∈ digits, isNumberChar c := by
  intro c hc
  have hdigit := hhex c (h c hc)
  simp [isNumberChar, hdigit]

private theorem isHexDigit_of_isDecimalDigit (c : Char) (h : isDecimalDigit c) : isHexDigit c := by
  simp [isHexDigit, h]

private theorem isHexDigit_of_isOctalDigit (c : Char) (h : isOctalDigit c) : isHexDigit c := by
  rw [isOctalDigit, Bool.and_eq_true, decide_eq_true_eq, decide_eq_true_eq] at h
  have hnine : c ≤ '9' := Char.le_trans h.2 (by decide)
  simp [isHexDigit, isDecimalDigit, h.1, hnine]

theorem Sign.isNumberChar_of_mem {sign : Text} {negative : Bool} (h : Sign sign negative) :
    ∀ c ∈ sign, isNumberChar c := by
  rcases h.text_eq with rfl | rfl | rfl
  · exact List.forall_mem_nil _
  · exact List.forall_mem_singleton.2 rfl
  · exact List.forall_mem_singleton.2 rfl

theorem Mantissa.isNumberChar_of_mem {mantissa : Text} (h : Mantissa mantissa) :
    ∀ c ∈ mantissa, isNumberChar c := by
  have hdigits : ∀ {digits : Text}, (∀ c ∈ digits, isDecimalDigit c) → ∀ c ∈ digits, isNumberChar c :=
    isNumberChar_of_row isHexDigit_of_isDecimalDigit
  cases h with
  | behindPoint h => exact List.forall_mem_cons.2 ⟨rfl, hdigits h.isDigit⟩
  | whole h => exact hdigits h.isDigit
  | withPoint h hfraction =>
    exact List.forall_mem_append.2 ⟨hdigits h.isDigit, List.forall_mem_cons.2 ⟨rfl, hdigits hfraction⟩⟩

theorem Exponent.isNumberChar_of_mem {exponent : Text} (h : Exponent exponent) :
    ∀ c ∈ exponent, isNumberChar c := by
  cases h with
  | absent => exact List.forall_mem_nil _
  | marked he hsign h =>
    refine List.forall_mem_cons.2 ⟨by rcases he with rfl | rfl <;> rfl, List.forall_mem_append.2 ⟨?_, ?_⟩⟩
    · exact hsign.isNumberChar_of_mem
    · exact isNumberChar_of_row isHexDigit_of_isDecimalDigit h.isDigit

theorem CoreNumber.isNumberChar_of_mem (h : CoreNumber t) : ∀ c ∈ t, isNumberChar c := by
  have hwords : ∀ word ∈ infinityWords ++ nanWords, word.all isNumberChar := by decide
  cases h with
  | integer h =>
    cases h with
    | decimal hsign h =>
      exact List.forall_mem_append.2
        ⟨hsign.isNumberChar_of_mem, isNumberChar_of_row isHexDigit_of_isDecimalDigit h.isDigit⟩
    | octal h =>
      exact List.forall_mem_cons.2
        ⟨rfl, List.forall_mem_cons.2 ⟨rfl, isNumberChar_of_row isHexDigit_of_isOctalDigit h.isDigit⟩⟩
    | hex h =>
      exact List.forall_mem_cons.2
        ⟨rfl, List.forall_mem_cons.2 ⟨rfl, isNumberChar_of_row (fun _ => id) h.isDigit⟩⟩
  | fraction hsign hmantissa hexponent =>
    refine List.forall_mem_append.2 ⟨hsign.isNumberChar_of_mem, List.forall_mem_append.2 ⟨?_, ?_⟩⟩
    · exact hmantissa.isNumberChar_of_mem
    · exact hexponent.isNumberChar_of_mem
  | infinity hsign h =>
    exact List.forall_mem_append.2
      ⟨hsign.isNumberChar_of_mem, List.all_eq_true.1 (hwords _ (List.mem_append_left _ h))⟩
  | nan h => exact List.all_eq_true.1 (hwords _ (List.mem_append_right _ h))

/-! ### White space -/

theorem isSpace_of_isNumberChar {c : Char} (h : isNumberChar c) : Text.isSpace c = false := by
  have hmarks : "+-.oxinIN".toList.all fun c => !Text.isSpace c := by decide
  rw [isNumberChar, Bool.or_eq_true, decide_eq_true_eq] at h
  rcases h with h | h
  · simp only [isHexDigit, Bool.or_eq_true, isDecimalDigit_iff, Bool.and_eq_true, decide_eq_true_eq, le_iff_toNat_le,
      Char.reduceToNat] at h
    simp [Text.isSpace]
    omega
  · simpa using List.all_eq_true.1 hmarks c h

private theorem isSpace_of_words {words : List Text} (hwords : words.all fun word => word.all fun c => !Text.isSpace c)
    {word : Text} (h : word ∈ words) : ∀ c ∈ word, Text.isSpace c = false := by
  intro c hc
  have hword := List.all_eq_true.1 hwords word h
  simpa using List.all_eq_true.1 hword c hc

/-- No text that is more than a string has white space in it. -/
theorem CoreForm.isSpace_eq_false (h : CoreForm t) : ∀ c ∈ t, Text.isSpace c = false := by
  rcases h with h | ⟨b, h⟩ | h
  · exact isSpace_of_words (by decide) h
  · exact isSpace_of_words (by cases b <;> decide) h
  · exact fun c hc => isSpace_of_isNumberChar (h.isNumberChar_of_mem c hc)

/-! ### The schema -/

/-- In YAML 1.2 a plain scalar is null, a truth value or a number exactly when it is written like one.  Every other
text is a string, unchanged; with white space before or behind it, so is every null, truth value and number. -/
theorem resolution_of_core_schema (t : Text) :
    (resolvePlain .v1_2 t = .null ↔ t ∈ nullTexts) ∧
    (∀ b, resolvePlain .v1_2 t = .bool b ↔ t ∈ boolTexts b) ∧
    ((∃ n, resolvePlain .v1_2 t = .int n) ∨ (∃ x, resolvePlain .v1_2 t = .float x) ↔ CoreNumber t) ∧
    (resolvePlain .v1_2 t = .string t ↔ ¬CoreForm t) ∧
    ∀ before after, CoreForm t → (∀ c ∈ before ++ after, Text.isSpace c) → before ++ after ≠ [] →
      resolvePlain .v1_2 (before ++ t ++ after) = .string (before ++ t ++ after) := by
  refine ⟨?_, fun b => ?_, ?_, resolvePlain_v1_2_eq_string_iff, fun before after _ hspace hne => ?_⟩
  · rw [resolvePlain_eq_null_iff, isNull_iff]
  · rw [resolvePlain_eq_bool_iff, bool?_v1_2_eq_some_iff]
  · rw [resolvePlain_eq_number_iff, isSome_number_iff]
  · refine resolvePlain_v1_2_eq_string_iff.2 fun hform => ?_
    obtain ⟨c, rest, hcons⟩ := List.exists_cons_of_ne_nil hne
    have hc : c ∈ before ++ after := hcons ▸ List.mem_cons_self
    have hmem : c ∈ before ++ t ++ after := by
      rw [List.mem_append] at hc
      simp [or_left_comm, hc]
    have hclear := hform.isSpace_eq_false c hmem
    rw [hspace c hc] at hclear
    cases hclear

/-- A number with a line feed behind it is a string. -/
theorem resolution_of_core_schema_before_newline :
    CoreForm "-.5e+3".toList ∧ resolvePlain .v1_2 "-.5e+3\n".toList = .string "-.5e+3\n".toList := by
  have hmantissa : Mantissa ".5".toList := .behindPoint (by decide)
  have hexponent : Exponent "e+3".toList := .marked (Or.inl rfl) .plus (by decide)
  have hform : CoreForm "-.5e+3".toList := Or.inr (Or.inr (.fraction .minus hmantissa hexponent))
  obtain ⟨-, -, -, -, hspace⟩ := resolution_of_core_schema "-.5e+3".toList
  exact ⟨hform, hspace [] ['\n'] hform (List.forall_mem_singleton.2 rfl) (List.cons_ne_nil _ _)⟩

end LocatedYaml.Scalar
