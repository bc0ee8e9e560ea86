import LocatedYaml.Proofs.Scalar.Pointed
import Mathlib.Data.List.Induction

/-!
# Portable scalars

Plain scalars that a document of YAML 1.2 can take along to YAML 1.1.  The words for null and the truth values of YAML
1.2 are words of YAML 1.1 too.  A decimal integer without a leading zero and a hexadecimal one are read as the same
numeral in both versions, so it does not matter how many digits they have; with a leading zero a row of digits is octal
in YAML 1.1, which is the same number only if all of them are zeros.  A float with a point has neither underscores nor
colons, and is read alike.
-/

namespace LocatedYaml.Scalar

/-- What YAML 1.2 takes for null or a truth value, decimal integers that are zero or begin with another digit,
hexadecimal integers, and floats with a point. -/
inductive Portable : Text → Prop
  | null {t : Text} (h : resolvePlain .v1_2 t = .null) : Portable t
  | bool {t : Text} {b : Bool} (h : resolvePlain .v1_2 t = .bool b) : Portable t
  | decimal {sign digits : Text} {negative : Bool} (hsign : Sign sign negative) (h : Row isDecimalDigit digits)
      (hzero : placeValue 10 digits = 0 ∨ digits.head? ≠ some '0') : Portable (sign ++ digits)
  | hex {digits : Text} (h : Row isHexDigit digits) : Portable ('0' :: 'x' :: digits)
  | float {t : Text} {x : Binary64} (hdot : '.' ∈ t) (h : resolvePlain .v1_2 t = .float x) : Portable t

variable {t sign digits : Text} {negative : Bool} {v : Value}

theorem bool?_v1_1_of_v1_2 {b : Bool} (h : bool? .v1_2 t = some (.bool b)) : bool? .v1_1 t = some (.bool b) := by
  have hwords : ∀ b, ∀ word ∈ boolTexts b, bool? .v1_1 word = some (.bool b) := by decide
  exact hwords b t (bool?_v1_2_eq_some_iff.1 h)

/-! ### Integers -/

/-- A row of digits denotes zero when it is made of zeros, in whatever radix. -/
theorem placeValue_eq_zero_iff {radix : Nat} (hradix : 0 < radix) (h : ∀ c ∈ digits, isDecimalDigit c) :
    placeValue radix digits = 0 ↔ ∀ c ∈ digits, c = '0' := by
  induction digits using List.reverseRecOn with
  | nil => simp [placeValue_nil]
  | append_singleton digits c ih =>
    have hc : isDecimalDigit c := h c (by simp)
    have hvalue : digitValue c = 0 ↔ c = '0' := by
      rw [digitValue_of_isDecimalDigit hc]
      constructor
      · intro hzero
        have hrange := isDecimalDigit_iff.1 hc
        have htoNat : c.toNat = '0'.toNat := by
          simp only [Char.reduceToNat]
          omega
        exact Char.toNat_inj.1 htoNat
      · rintro rfl
        rfl
    rw [placeValue_concat hc, Nat.add_eq_zero_iff, Nat.mul_eq_zero, or_iff_left hradix.ne',
      ih fun c hc => h c (List.mem_append_left _ hc), hvalue]
    simp [or_imp, forall_and]

theorem int?_eq_zero {version : Version} (h : IntegerSpelling version t 0) : int? version t = some (.int 0) := by
  obtain ⟨numeral, -, hint⟩ := h.int?_eq
  exact hint

/-- Read as octal, a row of zeros is zero as well. -/
theorem zeros_v1_1 (hsign : Sign sign negative) (hne : digits ≠ []) (h : ∀ c ∈ digits, c = '0') :
    IntegerSpelling .v1_1 (sign ++ digits) 0 := by
  obtain ⟨first, rest, rfl⟩ := List.exists_cons_of_ne_nil hne
  obtain ⟨rfl, hrest⟩ := List.forall_mem_cons.1 h
  by_cases hnil : rest = []
  · rw [hnil]
    exact .zero hsign
  · have hdigit : ∀ c ∈ rest, isDecimalDigit c ∧ isOctalDigit c := by
      intro c hc
      rw [hrest c hc]
      exact ⟨rfl, rfl⟩
    have hrow : Row isOctalDigit rest := ⟨hnil, fun c hc => (hdigit c hc).2⟩
    have hspaced : SpacedRow isOctalDigit rest :=
      ⟨fun c hc => Or.inl (hrow.isDigit c hc), by rwa [hrow.withoutUnderscores rfl]⟩
    have hvalue : signed negative (placeValue 8 rest) = 0 := by
      rw [(placeValue_eq_zero_iff (by decide) fun c hc => (hdigit c hc).1).2 hrest]
      cases negative <;> rfl
    rw [← hvalue]
    exact .signedOctal hsign hspaced

theorem int?_decimal (hsign : Sign sign negative) (h : Row isDecimalDigit digits)
    (hzero : placeValue 10 digits = 0 ∨ digits.head? ≠ some '0') :
    int? .v1_1 (sign ++ digits) = int? .v1_2 (sign ++ digits) := by
  rcases hzero with hzero | hhead
  · have hzeros := (placeValue_eq_zero_iff (by decide) h.isDigit).1 hzero
    have hvalue : signed negative (placeValue 10 digits) = 0 := by
      rw [hzero]
      cases negative <;> rfl
    rw [int?_eq_zero (zeros_v1_1 hsign h.ne_nil hzeros), int?_eq_zero (hvalue ▸ .decimal hsign h)]
  · obtain ⟨first, rest, rfl⟩ := List.exists_cons_of_ne_nil h.ne_nil
    obtain ⟨hfirst, hrest⟩ := List.forall_mem_cons.1 h.isDigit
    have hread : Numeral.read? .v1_1 (sign ++ first :: rest) = some ⟨negative, 10, first :: rest⟩ :=
      Numeral.read1_1?_decimal hsign hfirst (fun heq => hhead (congrArg some heq)) fun c hc => Or.inl (hrest c hc)
    have hread' : Numeral.read? .v1_2 (sign ++ first :: rest) = some ⟨negative, 10, first :: rest⟩ :=
      Numeral.read1_2?_decimal hsign h
    rw [int?_of_read? hread, int?_of_read? hread']

theorem int?_hex (h : Row isHexDigit digits) :
    int? .v1_1 ('0' :: 'x' :: digits) = int? .v1_2 ('0' :: 'x' :: digits) := by
  have hspaced : SpacedRow isHexDigit digits :=
    ⟨fun c hc => Or.inl (h.isDigit c hc), by rw [h.withoutUnderscores rfl]; exact h.ne_nil⟩
  have hread : Numeral.read? .v1_1 ('0' :: 'x' :: digits) = some ⟨false, 16, digits⟩ :=
    Numeral.read1_1?_hex .absent hspaced
  have hread' : Numeral.read? .v1_2 ('0' :: 'x' :: digits) = some ⟨false, 16, digits⟩ := Numeral.read1_2?_hex h
  rw [int?_of_read? hread, int?_of_read? hread']

theorem resolvePlain_eq_of_int?_eq {n : Int} (h : IntegerSpelling .v1_2 t n) (hint : int? .v1_1 t = int? .v1_2 t) :
    resolvePlain .v1_1 t = resolvePlain .v1_2 t := by
  have hsome : (int? .v1_2 t).isSome := isSome_value?_iff.2 ⟨n, h⟩
  obtain ⟨v, hv⟩ := Option.isSome_iff_exists.1 hsome
  rw [resolvePlain_eq_iff.2 (.int (hint.trans hv)), resolvePlain_eq_iff.2 (.int hv)]

/-! ### Floats -/

theorem resolvePlain_v1_1_of_pointed {x : Binary64} (hdot : '.' ∈ t) (h : resolvePlain .v1_2 t = .float x) :
    resolvePlain .v1_1 t = .float x := by
  have hnumber : CoreNumber t := isSome_number_iff.1 (resolvePlain_eq_number_iff.1 (Or.inr ⟨x, h⟩))
  have hcolon : ':' ∉ t := fun hmem => absurd (hnumber.isNumberChar_of_mem ':' hmem) (by decide)
  have hunderscore : '_' ∉ t := fun hmem => absurd (hnumber.isNumberChar_of_mem '_' hmem) (by decide)
  rw [resolvePlain_eq_float_iff (int?_of_dot hdot hcolon)] at h ⊢
  exact float?_v1_1_of_v1_2 hdot hunderscore hcolon h

/-! ### Resolution -/

/-- A portable scalar has the same value in both versions. -/
theorem resolution_of_portable_scalars (h : Portable t) : resolvePlain .v1_1 t = resolvePlain .v1_2 t := by
  cases h with
  | null h => rw [h, resolvePlain_eq_null_iff.2 (resolvePlain_eq_null_iff.1 h)]
  | bool h => rw [h, resolvePlain_eq_bool_iff.2 (bool?_v1_1_of_v1_2 (resolvePlain_eq_bool_iff.1 h))]
  | decimal hsign h hzero => exact resolvePlain_eq_of_int?_eq (.decimal hsign h) (int?_decimal hsign h hzero)
  | hex h => exact resolvePlain_eq_of_int?_eq (.hex h) (int?_hex h)
  | float hdot h => rw [h, resolvePlain_v1_1_of_pointed hdot h]

/-- The decimal digits of the negative of `2 ^ 127 + 1`, which fits neither 64 nor 128 bits. -/
theorem resolution_of_portable_scalars_beyond_128_bits :
    Portable "-170141183460469231731687303715884105729".toList ∧
      resolvePlain .v1_1 "-170141183460469231731687303715884105729".toList =
        resolvePlain .v1_2 "-170141183460469231731687303715884105729".toList := by
  have hrow : Row isDecimalDigit "170141183460469231731687303715884105729".toList := by decide
  have hportable := Portable.decimal .minus hrow (Or.inr (by decide))
  exact ⟨hportable, resolution_of_portable_scalars hportable⟩

end LocatedYaml.Scalar
