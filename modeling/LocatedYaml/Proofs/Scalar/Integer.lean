import LocatedYaml.Proofs.Scalar.Plain
import Mathlib.Data.Nat.Digits.Defs

/-!
# Integer spellings

`IntegerSpelling` is the grammar of integers in both versions, with the integer that each spelling denotes.  A plain
scalar is an integer exactly when it is a spelling of an integer between `-2 ^ 63` and `2 ^ 63 - 1`, and it is that
integer; spellings of other integers are floats (`resolution_of_integers`).
-/

namespace LocatedYaml.Scalar

/-! ### Signs and rows of digits -/

/-- A sign, which may be missing, and whether it is negative. -/
inductive Sign : Text → Bool → Prop
  | absent : Sign [] false
  | plus : Sign ['+'] false
  | minus : Sign ['-'] true

/-- One or more digits. -/
structure Row (isDigit : Char → Bool) (t : Text) : Prop where
  ne_nil : t ≠ []
  isDigit : ∀ c ∈ t, isDigit c

/-- Digits with underscores among them; without the underscores one or more are left. -/
structure SpacedRow (isDigit : Char → Bool) (t : Text) : Prop where
  isDigit : ∀ c ∈ t, isDigit c ∨ c = '_'
  ne_nil : withoutUnderscores t ≠ []

/-- The number that a row of digits denotes by their places; underscores do not count. -/
def placeValue (radix : Nat) (t : Text) : Nat := Nat.ofDigits radix ((withoutUnderscores t).reverse.map digitValue)

def signed (negative : Bool) (n : Nat) : Int := if negative then -n else n

/-- A spelling of an integer without colons, and the integer that it denotes. -/
inductive IntegerSpelling : Version → Text → Int → Prop
  | decimal {sign digits : Text} {negative : Bool} (hsign : Sign sign negative) (h : Row isDecimalDigit digits) :
    IntegerSpelling .v1_2 (sign ++ digits) (signed negative (placeValue 10 digits))
  | octal {digits : Text} (h : Row isOctalDigit digits) :
    IntegerSpelling .v1_2 ('0' :: 'o' :: digits) (placeValue 8 digits)
  | hex {digits : Text} (h : Row isHexDigit digits) :
    IntegerSpelling .v1_2 ('0' :: 'x' :: digits) (placeValue 16 digits)
  | signedBinary {sign digits : Text} {negative : Bool} (hsign : Sign sign negative)
      (h : SpacedRow isBinaryDigit digits) :
    IntegerSpelling .v1_1 (sign ++ '0' :: 'b' :: digits) (signed negative (placeValue 2 digits))
  | signedHex {sign digits : Text} {negative : Bool} (hsign : Sign sign negative) (h : SpacedRow isHexDigit digits) :
    IntegerSpelling .v1_1 (sign ++ '0' :: 'x' :: digits) (signed negative (placeValue 16 digits))
  | signedOctal {sign digits : Text} {negative : Bool} (hsign : Sign sign negative)
      (h : SpacedRow isOctalDigit digits) :
    IntegerSpelling .v1_1 (sign ++ '0' :: digits) (signed negative (placeValue 8 digits))
  | zero {sign : Text} {negative : Bool} (hsign : Sign sign negative) : IntegerSpelling .v1_1 (sign ++ ['0']) 0
  | spacedDecimal {sign rest : Text} {first : Char} {negative : Bool} (hsign : Sign sign negative)
      (hfirst : isDecimalDigit first) (hzero : first ≠ '0') (h : ∀ c ∈ rest, isDecimalDigit c ∨ c = '_') :
    IntegerSpelling .v1_1 (sign ++ first :: rest) (signed negative (placeValue 10 (first :: rest)))

/-! ### Taking signs and rows apart -/

theorem le_iff_toNat_le (a b : Char) : a ≤ b ↔ a.toNat ≤ b.toNat := UInt32.le_iff_toNat_le

theorem isDecimalDigit_iff {c : Char} : isDecimalDigit c ↔ 48 ≤ c.toNat ∧ c.toNat ≤ 57 := by
  simp only [isDecimalDigit, Bool.and_eq_true, decide_eq_true_eq, le_iff_toNat_le, Char.reduceToNat]

theorem digitValue_of_isDecimalDigit {c : Char} (h : isDecimalDigit c) : digitValue c = c.toNat - 48 := by
  rw [isDecimalDigit, Bool.and_eq_true, decide_eq_true_eq, decide_eq_true_eq] at h
  exact if_pos h.2

theorem Sign.text_eq {sign : Text} {negative : Bool} (h : Sign sign negative) :
    sign = [] ∨ sign = ['+'] ∨ sign = ['-'] := by
  cases h <;> simp

theorem splitSign_append {sign body : Text} {negative : Bool} (h : Sign sign negative)
    (hbody : ∀ c, body.head? = some c → c ≠ '-' ∧ c ≠ '+') : splitSign (sign ++ body) = (negative, body) := by
  cases h with
  | absent =>
    rw [List.nil_append]
    unfold splitSign
    split
    · exact absurd rfl (hbody '-' rfl).1
    · exact absurd rfl (hbody '+' rfl).2
    · rfl
  | plus => rfl
  | minus => rfl

theorem exists_sign {t body : Text} {negative : Bool} (h : splitSign t = (negative, body)) :
    ∃ sign, Sign sign negative ∧ t = sign ++ body := by
  unfold splitSign at h
  split at h <;> cases h
  · exact ⟨['-'], .minus, rfl⟩
  · exact ⟨['+'], .plus, rfl⟩
  · exact ⟨[], .absent, rfl⟩

theorem isRow_iff {isDigit : Char → Bool} {t : Text} : Numeral.isRow isDigit t ↔ Row isDigit t := by
  rw [Numeral.isRow, Bool.and_eq_true, List.all_eq_true]
  constructor
  · rintro ⟨hne, h⟩
    exact ⟨by simpa using hne, h⟩
  · rintro ⟨hne, h⟩
    exact ⟨by simpa using hne, h⟩

instance (isDigit : Char → Bool) (t : Text) : Decidable (Row isDigit t) :=
  decidable_of_iff (Numeral.isRow isDigit t) isRow_iff

theorem orUnderscore_iff {isDigit : Char → Bool} {c : Char} :
    Numeral.orUnderscore isDigit c ↔ isDigit c ∨ c = '_' := by
  simp [Numeral.orUnderscore]

theorem spacedRow_iff {isDigit : Char → Bool} {t : Text} :
    t.all (Numeral.orUnderscore isDigit) ∧ withoutUnderscores t ≠ [] ↔ SpacedRow isDigit t := by
  simp only [List.all_eq_true, orUnderscore_iff]
  exact ⟨fun h => ⟨h.1, h.2⟩, fun h => ⟨h.isDigit, h.ne_nil⟩⟩

instance (isDigit : Char → Bool) (t : Text) : Decidable (SpacedRow isDigit t) :=
  decidable_of_iff (t.all (Numeral.orUnderscore isDigit) ∧ withoutUnderscores t ≠ []) spacedRow_iff

/-- A class of characters ends where the next character is not in it. -/
theorem span_of_head? {isDigit : Char → Bool} {digits rest : Text} (hdigits : ∀ c ∈ digits, isDigit c)
    (hrest : ∀ c, rest.head? = some c → isDigit c = false) :
    (digits ++ rest).takeWhile isDigit = digits ∧ (digits ++ rest).dropWhile isDigit = rest := by
  have htake : rest.takeWhile isDigit = [] := by
    cases rest with
    | nil => rfl
    | cons c rest => exact List.takeWhile_cons_of_neg (by simp [hrest c rfl])
  have hdrop : rest.dropWhile isDigit = rest := by
    cases rest with
    | nil => rfl
    | cons c rest => exact List.dropWhile_cons_of_neg (by simp [hrest c rfl])
  rw [List.takeWhile_append_of_pos hdigits, List.dropWhile_append_of_pos hdigits, htake, hdrop, List.append_nil]
  exact ⟨rfl, rfl⟩

theorem foldl_eq_ofDigits {α : Type} (radix : Nat) (value : α → Nat) (l : List α) :
    l.foldl (fun n a => n * radix + value a) 0 = Nat.ofDigits radix (l.reverse.map value) := by
  rw [Nat.ofDigits_eq_foldr, List.foldr_map, List.foldr_reverse]
  simp only [Nat.cast_id, mul_comm, add_comm]

theorem digitsValue_eq_placeValue (radix : Nat) (t : Text) :
    digitsValue radix (withoutUnderscores t) = placeValue radix t :=
  foldl_eq_ofDigits radix digitValue (withoutUnderscores t)

theorem placeValue_nil (radix : Nat) : placeValue radix [] = 0 := rfl

theorem placeValue_concat {c : Char} (hc : isDecimalDigit c) (radix : Nat) (t : Text) :
    placeValue radix (t ++ [c]) = placeValue radix t * radix + digitValue c := by
  have hunderscore : c ≠ '_' := by
    rintro rfl
    cases hc
  have hsplit : withoutUnderscores (t ++ [c]) = withoutUnderscores t ++ [c] := by simp [withoutUnderscores, hunderscore]
  rw [← digitsValue_eq_placeValue, ← digitsValue_eq_placeValue, hsplit, digitsValue, List.foldl_append]
  rfl

theorem Numeral.toInt_eq (numeral : Numeral) :
    numeral.toInt = signed numeral.negative (placeValue numeral.radix numeral.digits) := by
  rw [← digitsValue_eq_placeValue]
  rfl

/-! ### Reading spellings -/

/-- The spelling of an integer without colons, taken apart. -/
def Numeral.read? : Version → Text → Option Numeral
  | .v1_1 => read1_1?
  | .v1_2 => read1_2?

/-- A number begins with a digit, so its sign is told apart from it. -/
theorem splitSign_append_digit {sign rest : Text} {negative : Bool} {first : Char} (h : Sign sign negative)
    (hfirst : isDecimalDigit first) : splitSign (sign ++ first :: rest) = (negative, first :: rest) := by
  refine splitSign_append h ?_
  rintro c ⟨⟩
  constructor
  · rintro rfl
    cases hfirst
  · rintro rfl
    cases hfirst

theorem Row.withoutUnderscores {isDigit : Char → Bool} {t : Text} (h : Row isDigit t)
    (hunderscore : isDigit '_' = false) : withoutUnderscores t = t := by
  refine List.filter_eq_self.2 fun c hc => decide_eq_true ?_
  rintro rfl
  rw [h.isDigit '_' hc] at hunderscore
  cases hunderscore

theorem SpacedRow.isRow {isDigit : Char → Bool} {t : Text} (h : SpacedRow isDigit t) :
    Numeral.isRow (Numeral.orUnderscore isDigit) t := by
  refine isRow_iff.2 ⟨?_, fun c hc => orUnderscore_iff.2 (h.isDigit c hc)⟩
  rintro rfl
  exact h.ne_nil rfl

theorem Row.splitSign_append {sign digits : Text} {negative : Bool} (hsign : Sign sign negative)
    (h : Row isDecimalDigit digits) : splitSign (sign ++ digits) = (negative, digits) := by
  obtain ⟨first, rest, rfl⟩ := List.exists_cons_of_ne_nil h.ne_nil
  exact splitSign_append_digit hsign (h.isDigit first List.mem_cons_self)

theorem Numeral.read1_2?_decimal {sign digits : Text} {negative : Bool} (hsign : Sign sign negative)
    (h : Row isDecimalDigit digits) : Numeral.read1_2? (sign ++ digits) = some ⟨negative, 10, digits⟩ := by
  simp only [Numeral.read1_2?, h.splitSign_append hsign, isRow_iff.2 h, if_true]

private theorem isRow_of_mark {c : Char} (hc : isDecimalDigit c = false) (digits : Text) :
    Numeral.isRow isDecimalDigit ('0' :: c :: digits) = false := by
  simp [Numeral.isRow, hc]

theorem Numeral.read1_2?_hex {digits : Text} (h : Row isHexDigit digits) :
    Numeral.read1_2? ('0' :: 'x' :: digits) = some ⟨false, 16, digits⟩ := by
  simp [Numeral.read1_2?, splitSign, isRow_of_mark (c := 'x') rfl, isRow_iff.2 h]

theorem Numeral.read1_1?_hex {sign digits : Text} {negative : Bool} (hsign : Sign sign negative)
    (h : SpacedRow isHexDigit digits) :
    Numeral.read1_1? (sign ++ '0' :: 'x' :: digits) = some ⟨negative, 16, digits⟩ := by
  have hzero : isDecimalDigit '0' := rfl
  simp [Numeral.read1_1?, splitSign_append_digit hsign hzero, h.isRow]

theorem Numeral.read1_1?_decimal {sign rest : Text} {first : Char} {negative : Bool} (hsign : Sign sign negative)
    (hfirst : isDecimalDigit first) (hzero : first ≠ '0') (h : ∀ c ∈ rest, isDecimalDigit c ∨ c = '_') :
    Numeral.read1_1? (sign ++ first :: rest) = some ⟨negative, 10, first :: rest⟩ := by
  have hrest : ∀ c ∈ rest, Numeral.orUnderscore isDecimalDigit c := fun c hc => orUnderscore_iff.2 (h c hc)
  simp only [Numeral.read1_1?, splitSign_append_digit hsign hfirst]
  simpa [hzero, hfirst] using hrest

private theorem read1_2?_of_spelling {t : Text} {n : Int} (h : IntegerSpelling .v1_2 t n) :
    ∃ numeral, Numeral.read1_2? t = some numeral ∧ withoutUnderscores numeral.digits ≠ [] ∧ numeral.toInt = n := by
  cases h with
  | @decimal sign digits negative hsign h =>
    refine ⟨⟨negative, 10, digits⟩, Numeral.read1_2?_decimal hsign h, ?_, Numeral.toInt_eq _⟩
    rw [h.withoutUnderscores rfl]
    exact h.ne_nil
  | @octal digits h =>
    refine ⟨⟨false, 8, digits⟩, ?_, ?_, Numeral.toInt_eq _⟩
    · simp [Numeral.read1_2?, splitSign, isRow_of_mark (c := 'o') rfl, isRow_iff.2 h]
    · rw [h.withoutUnderscores rfl]
      exact h.ne_nil
  | @hex digits h =>
    refine ⟨⟨false, 16, digits⟩, Numeral.read1_2?_hex h, ?_, Numeral.toInt_eq _⟩
    rw [h.withoutUnderscores rfl]
    exact h.ne_nil

private theorem read1_1?_of_spelling {t : Text} {n : Int} (h : IntegerSpelling .v1_1 t n) :
    ∃ numeral, Numeral.read1_1? t = some numeral ∧ withoutUnderscores numeral.digits ≠ [] ∧ numeral.toInt = n := by
  have hzero : isDecimalDigit '0' := rfl
  cases h with
  | @signedBinary sign digits negative hsign h =>
    refine ⟨⟨negative, 2, digits⟩, ?_, h.ne_nil, Numeral.toInt_eq _⟩
    simp [Numeral.read1_1?, splitSign_append_digit hsign hzero, h.isRow]
  | @signedHex sign digits negative hsign h =>
    exact ⟨⟨negative, 16, digits⟩, Numeral.read1_1?_hex hsign h, h.ne_nil, Numeral.toInt_eq _⟩
  | @signedOctal sign digits negative hsign h =>
    refine ⟨⟨negative, 8, digits⟩, ?_, h.ne_nil, Numeral.toInt_eq _⟩
    simp only [Numeral.read1_1?, splitSign_append_digit hsign hzero]
    -- neither the end nor the mark of another radix can stand behind the zero
    obtain ⟨c, rest, rfl⟩ := List.exists_cons_of_ne_nil (isRow_iff.1 h.isRow).ne_nil
    have hb : c ≠ 'b' := by
      rintro rfl
      exact absurd (h.isDigit 'b' List.mem_cons_self) (by decide)
    have hx : c ≠ 'x' := by
      rintro rfl
      exact absurd (h.isDigit 'x' List.mem_cons_self) (by decide)
    simp [hb, hx, h.isRow]
  | @zero sign negative hsign =>
    refine ⟨⟨negative, 10, ['0']⟩, ?_, by simp [withoutUnderscores], ?_⟩
    · simp [Numeral.read1_1?, splitSign_append_digit hsign hzero]
    · cases negative <;> rfl
  | @spacedDecimal sign rest first negative hsign hfirst hne h =>
    refine ⟨⟨negative, 10, first :: rest⟩, Numeral.read1_1?_decimal hsign hfirst hne h, ?_, Numeral.toInt_eq _⟩
    have hunderscore : first ≠ '_' := by
      rintro rfl
      cases hfirst
    simp [withoutUnderscores, hunderscore]

private theorem spelling_of_read1_2? {t : Text} {numeral : Numeral} (h : Numeral.read1_2? t = some numeral) :
    IntegerSpelling .v1_2 t numeral.toInt := by
  rw [Numeral.toInt_eq]
  unfold Numeral.read1_2? at h
  split at h
  rename_i negative body hsplit
  split at h
  · obtain ⟨sign, hsign, rfl⟩ := exists_sign hsplit
    cases h
    exact .decimal hsign (isRow_iff.1 ‹_›)
  · split at h
    · split at h
      · cases h
        exact .octal (isRow_iff.1 ‹_›)
      · cases h
    · split at h
      · cases h
        exact .hex (isRow_iff.1 ‹_›)
      · cases h
    · cases h

private theorem spelling_of_read1_1? {t : Text} {numeral : Numeral} (h : Numeral.read1_1? t = some numeral)
    (hdigits : withoutUnderscores numeral.digits ≠ []) : IntegerSpelling .v1_1 t numeral.toInt := by
  have hspaced : ∀ {isDigit : Char → Bool} {row : Text}, Numeral.isRow (Numeral.orUnderscore isDigit) row →
      withoutUnderscores row ≠ [] → SpacedRow isDigit row :=
    fun hrow hne => ⟨fun c hc => orUnderscore_iff.1 ((isRow_iff.1 hrow).isDigit c hc), hne⟩
  rw [Numeral.toInt_eq]
  unfold Numeral.read1_1? at h
  split at h
  rename_i negative body hsplit
  obtain ⟨sign, hsign, rfl⟩ := exists_sign hsplit
  split at h
  · cases h
    convert IntegerSpelling.zero hsign
    cases negative <;> rfl
  · split at h
    · cases h
      exact .signedBinary hsign (hspaced ‹_› hdigits)
    · cases h
  · split at h
    · cases h
      exact .signedHex hsign (hspaced ‹_› hdigits)
    · cases h
  · split at h
    · cases h
      exact .signedOctal hsign (hspaced ‹_› hdigits)
    · cases h
  · rename_i first rest _ _ _ hoctal
    split at h
    · rename_i hrow
      cases h
      refine .spacedDecimal hsign hrow.1 ?_ fun c hc => orUnderscore_iff.1 (List.all_eq_true.1 hrow.2 c hc)
      rintro rfl
      exact hoctal rfl
    · cases h
  · cases h

/-- Every spelling is read as a numeral that denotes the same integer. -/
theorem IntegerSpelling.exists_read? {version : Version} {t : Text} {n : Int} (h : IntegerSpelling version t n) :
    ∃ numeral, Numeral.read? version t = some numeral ∧ withoutUnderscores numeral.digits ≠ [] ∧ numeral.toInt = n := by
  cases version with
  | v1_1 => exact read1_1?_of_spelling h
  | v1_2 => exact read1_2?_of_spelling h

/-- Only spellings are read. -/
theorem IntegerSpelling.of_read? {version : Version} {t : Text} {numeral : Numeral}
    (h : Numeral.read? version t = some numeral) (hdigits : withoutUnderscores numeral.digits ≠ []) :
    IntegerSpelling version t numeral.toInt := by
  cases version with
  | v1_1 => exact spelling_of_read1_1? h hdigits
  | v1_2 => exact spelling_of_read1_2? h

/-! ### Values -/

section Values

variable {version : Version} {t : Text} {n : Int}

theorem int?_of_read? {numeral : Numeral} (h : Numeral.read? version t = some numeral) :
    int? version t = numeral.value? := by
  cases version with
  | v1_1 => simp only [int?, show Numeral.read1_1? t = some numeral from h]
  | v1_2 => simp only [int?, show Numeral.read1_2? t = some numeral from h, Option.bind_eq_bind, Option.bind_some]

/-- The other integers are sexagesimal, and have colons. -/
theorem int?_of_read?_eq_none (hcolon : ':' ∉ t) (h : Numeral.read? version t = none) : int? version t = none := by
  cases version with
  | v1_1 =>
    obtain ⟨sign, -, ht⟩ := exists_sign (t := t) rfl
    have hbody : ':' ∉ (splitSign t).2 := fun hmem => hcolon (ht ▸ List.mem_append_right sign hmem)
    have hgroups : Sexagesimal.readInt? (splitSign t).2 = none := by
      rw [Sexagesimal.readInt?, Sexagesimal.groups?, List.splitOn_eq_singleton hbody]
    simp only [int?, show Numeral.read1_1? t = none from h, hgroups, Option.bind_eq_bind, Option.bind_none]
  | v1_2 => simp only [int?, show Numeral.read1_2? t = none from h, Option.bind_eq_bind, Option.bind_none]

/-- A spelling has the integer that it denotes for its value, or a float when the integer is out of range. -/
theorem IntegerSpelling.int?_eq (h : IntegerSpelling version t n) :
    ∃ numeral, Numeral.read? version t = some numeral ∧
      int? version t = if minInt ≤ n ∧ n ≤ maxInt then some (.int n) else some (.float numeral.toBinary64) := by
  obtain ⟨numeral, hread, hdigits, rfl⟩ := h.exists_read?
  exact ⟨numeral, hread, by rw [int?_of_read? hread, Numeral.value?_eq, if_neg hdigits]⟩

/-- What is read has a value when it is a spelling. -/
theorem isSome_value?_iff :
    ((Numeral.read? version t).bind Numeral.value?).isSome ↔ ∃ n, IntegerSpelling version t n := by
  constructor
  · intro h
    obtain ⟨v, hv⟩ := Option.isSome_iff_exists.1 h
    obtain ⟨numeral, hread, hvalue⟩ := Option.bind_eq_some_iff.1 hv
    rw [Numeral.value?_eq] at hvalue
    split at hvalue
    · cases hvalue
    · exact ⟨_, .of_read? hread ‹_›⟩
  · rintro ⟨n, h⟩
    obtain ⟨numeral, hread, hdigits, -⟩ := h.exists_read?
    rw [hread, Option.bind_some, Numeral.value?_eq, if_neg hdigits]
    split <;> rfl

end Values

end LocatedYaml.Scalar
