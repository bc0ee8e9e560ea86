import LocatedYaml.Json.Writer
import LocatedYaml.Proofs.Binary64.Nearest
import LocatedYaml.Proofs.Conversion.Basic
import LocatedYaml.Proofs.Document.Building
import LocatedYaml.Proofs.Scalar.Sexagesimal
import LocatedYaml.Tree.Json
import Mathlib.Data.List.Basic

/-!
# Integers in JSON

An integer up to `2 ^ 53` in magnitude is a double-precision number itself, and is found again in it
(`Binary64.toInt?_ofInt`).  So a plain scalar that spells an integer of magnitude `2 ^ 53 - 1` at most, in any notation,
is written as the decimal numeral of that integer (`numerals_of_safe_integers`).
-/

namespace LocatedYaml

/-! ### Integers among double-precision numbers -/

namespace Binary64

/-- A magnitude that is an integer, as a significand and an exponent. -/
private theorem significand_of_magnitude {rank m : Nat} (h : magnitude rank = m) :
    (∃ n : Nat, exponent rank = n ∧ significand rank * 2 ^ n = m) ∨
      ∃ n : Nat, 0 < n ∧ exponent rank = -n ∧ significand rank = m * 2 ^ n := by
  rw [magnitude] at h
  rcases lt_or_ge (exponent rank) 0 with hneg | hnonneg
  · right
    obtain ⟨n, hn⟩ := Int.eq_ofNat_of_zero_le (show 0 ≤ -exponent rank by omega)
    have hexponent : exponent rank = -n := by omega
    refine ⟨n, by omega, hexponent, ?_⟩
    rw [hexponent, zpow_neg, zpow_natCast, ← div_eq_mul_inv, div_eq_iff (by positivity)] at h
    exact_mod_cast h
  · left
    obtain ⟨n, hn⟩ := Int.eq_ofNat_of_zero_le hnonneg
    refine ⟨n, hn, ?_⟩
    rw [hn, zpow_natCast] at h
    exact_mod_cast h

/-- A number whose magnitude is an integer is recognised as that integer. -/
theorem toInt?_of_magnitude {rank : Fin infiniteRank} {m : Nat} (h : magnitude rank = m) (negative : Bool) :
    (finite negative rank).toInt? = some (Scalar.signed negative m) := by
  rcases significand_of_magnitude h with ⟨n, hexponent, hsignificand⟩ | ⟨n, hn, hexponent, hsignificand⟩
  · have hnonneg : 0 ≤ exponent rank := by omega
    have hpow : Nat.pow 2 (exponent rank).toNat = 2 ^ n := by
      rw [hexponent]
      rfl
    simp only [toInt?, if_pos hnonneg, hpow, hsignificand]
    rfl
  · have hneg : ¬0 ≤ exponent rank := by omega
    have hpow : Nat.pow 2 (-exponent rank).toNat = 2 ^ n := by
      rw [hexponent, Int.neg_neg]
      rfl
    have hpos : 0 < 2 ^ n := Nat.two_pow_pos n
    simp only [toInt?, if_neg hneg, hpow, hsignificand, Nat.mul_mod_left, if_true, Nat.mul_div_cancel m hpos]
    rfl

theorem nearestRank_lt_infiniteRank {n : Nat} (h : n ≤ 2 ^ 53) : nearestRank n 1 < infiniteRank := by
  apply magnitude_strictMono.lt_iff_lt.1
  rw [magnitude_nearestRank_natCast h, magnitude_infiniteRank]
  calc (n : ℚ) ≤ 2 ^ 53 := by exact_mod_cast h
    _ < 2 ^ 1024 := pow_lt_pow_right₀ one_lt_two (by decide)

theorem exists_ofInt_eq {n : Int} (h : n.natAbs ≤ 2 ^ 53) :
    ∃ rank : Fin infiniteRank, ofInt n = finite (n < 0) rank ∧ magnitude rank = n.natAbs := by
  have hlt := nearestRank_lt_infiniteRank h
  refine ⟨⟨nearestRank n.natAbs 1, hlt⟩, ?_, magnitude_nearestRank_natCast h⟩
  rw [ofInt, nearest, ofRank, dif_pos hlt]

/-- Integers up to `2 ^ 53` are double-precision numbers. -/
theorem toInt?_ofInt {n : Int} (h : n.natAbs ≤ 2 ^ 53) : (ofInt n).toInt? = some n := by
  obtain ⟨rank, heq, hmagnitude⟩ := exists_ofInt_eq h
  have hsigned : Scalar.signed (n < 0) n.natAbs = n := by
    unfold Scalar.signed
    by_cases hneg : n < 0
    · rw [decide_eq_true hneg, if_pos rfl]
      omega
    · rw [decide_eq_false hneg, if_neg Bool.false_ne_true]
      omega
  rw [heq, toInt?_of_magnitude hmagnitude, hsigned]

end Binary64

/-! ### Decimal numerals -/

namespace Json

theorem ofBinary64_ofInt {n : Int} (h : n.natAbs ≤ maxSafeInteger) : ofBinary64 (.ofInt n) = ofInt n := by
  have hbound : n.natAbs ≤ 2 ^ 53 := h.trans (by decide)
  obtain ⟨rank, heq, -⟩ := Binary64.exists_ofInt_eq hbound
  have hint := Binary64.toInt?_ofInt hbound
  rw [heq] at hint ⊢
  simp only [ofBinary64, hint, if_pos h]

theorem ofInt_eq (n : Int) : ofInt n = .number (toString n).toList := by
  show _ = Json.number n.repr.toList
  rw [ofInt, Int.repr_eq_if]
  by_cases hneg : n < 0
  · have habs : (-n).toNat = n.natAbs := by omega
    rw [if_pos hneg, if_neg (by omega), habs, Nat.repr_eq_ofList_toDigits]
    simp
  · have habs : n.toNat = n.natAbs := by omega
    rw [if_neg hneg, if_pos (by omega), habs, Nat.repr_eq_ofList_toDigits]
    simp

end Json

namespace Scalar

theorem row_toDigits (n : Nat) : Row isDecimalDigit (Nat.toDigits 10 n) := by
  refine ⟨Nat.toDigits_ne_nil, ?_⟩
  intro c hc
  have hdigit := Nat.isDigit_of_mem_toDigits (by decide) (by decide) hc
  rw [isDecimalDigit_iff]
  exact Char.isDigit_iff_toNat.1 hdigit

theorem placeValue_toDigits (n : Nat) : placeValue 10 (Nat.toDigits 10 n) = n := by
  have hrow := row_toDigits n
  have hstep : ∀ (value : Nat) (c : Char), c ∈ Nat.toDigits 10 n →
      value * 10 + digitValue c = 10 * value + (c.toNat - '0'.toNat) := by
    intro value c hc
    rw [digitValue_of_isDecimalDigit (hrow.isDigit c hc), Nat.mul_comm]
    rfl
  rw [← digitsValue_eq_placeValue, hrow.withoutUnderscores rfl, digitsValue, List.foldl_ext _ _ 0 hstep,
    ← Nat.ofDigitChars_eq_foldl, Nat.ofDigitChars_ten_toDigits]

/-- The decimal numeral of an integer spells that integer. -/
theorem integerSpelling_toString (n : Int) : IntegerSpelling .v1_2 (toString n).toList n := by
  have hnumeral : Json.ofInt n = .number (toString n).toList := Json.ofInt_eq n
  have hrow := row_toDigits n.natAbs
  have hvalue := placeValue_toDigits n.natAbs
  unfold Json.ofInt at hnumeral
  rw [← Json.number.inj hnumeral]
  by_cases hneg : n < 0
  · have hn : n = signed true (placeValue 10 (Nat.toDigits 10 n.natAbs)) := by
      rw [hvalue, signed, if_pos rfl]
      omega
    rw [if_pos hneg]
    conv => rhs; rw [hn]
    exact .decimal .minus hrow
  · have hn : n = signed false (placeValue 10 (Nat.toDigits 10 n.natAbs)) := by
      rw [hvalue, signed, if_neg Bool.false_ne_true]
      omega
    rw [if_neg hneg]
    conv => rhs; rw [hn]
    exact .decimal .absent hrow

/-! ### Plain scalars -/

/-- A plain scalar that spells an integer, with digits of one radix or in base 60. -/
inductive PlainInteger : Version → Text → Int → Prop
  | whole {version : Version} {t : Text} {n : Int} (h : IntegerSpelling version t n) : PlainInteger version t n
  | sexagesimal (s : SexagesimalSpelling) : PlainInteger .v1_1 s.text s.value

theorem PlainInteger.resolvePlain_eq {version : Version} {t : Text} {n : Int} (h : PlainInteger version t n)
    (hsafe : |n| ≤ 2 ^ 53 - 1) : resolvePlain version t = .int n := by
  rw [resolvePlain_eq_int_iff]
  rw [abs_le] at hsafe
  cases h with
  | whole h =>
    obtain ⟨numeral, -, hint⟩ := h.int?_eq
    have hrange : minInt ≤ n ∧ n ≤ maxInt := by
      unfold minInt maxInt
      omega
    rw [hint, if_pos hrange]
  | sexagesimal s =>
    have hmagnitude : s.magnitude < 2 ^ 63 := by
      have hvalue : s.value = s.magnitude ∨ s.value = -s.magnitude := by
        unfold SexagesimalSpelling.value signed
        split
        · exact Or.inr rfl
        · exact Or.inl rfl
      omega
    rw [s.int?_text, if_pos hmagnitude]

end Scalar

open Scalar (PlainInteger IntegerSpelling resolvePlain)

/-- A plain scalar with an integer value is converted to a number, wherever it or a copy of it stands. -/
theorem ofNode_of_resolvePlain {version : Version} {t : Text} {n : Int} (h : resolvePlain version t = .int n)
    (source : Text) (found : Nat) (anchor : AnchorId) :
    ∃ s, scalarNode source version found t .plain anchor none = .ok (.scalar s) ∧
      ∀ table anchors expanding range, Tree.ofNode table anchors expanding ((Node.scalar s).withRange range) =
        .ok (.number (.ofInt n) (table.location range)) := by
  have hresolve : Scalar.resolve version .plain ((none : Option Tag).map Tag.full) t = some (.int n) := by
    show some (resolvePlain version t) = _
    rw [h]
  refine ⟨_, Builder.scalarNode_of_some hresolve, ?_⟩
  intro table anchors expanding range
  rw [Node.withRange, Tree.ofNode_scalar]
  rfl

theorem natAbs_le_maxSafeInteger {n : Int} (h : |n| ≤ 2 ^ 53 - 1) : n.natAbs ≤ Json.maxSafeInteger := by
  rw [abs_le] at h
  unfold Json.maxSafeInteger
  omega

/-- A plain scalar that spells an integer of magnitude `2 ^ 53 - 1` at most has that integer for its value.  The number
it is converted to is written as the decimal numeral of the integer, which spells it again; so other integers are
written otherwise. -/
theorem numerals_of_safe_integers {version : Version} {t : Text} {n : Int} (hsafe : |n| ≤ 2 ^ 53 - 1) :
    (PlainInteger version t n → resolvePlain version t = .int n) ∧
    (resolvePlain version t = .int n → ∀ source found anchor, ∃ s,
      scalarNode source version found t .plain anchor none = .ok (.scalar s) ∧
      ∀ table anchors expanding range, Tree.ofNode table anchors expanding ((Node.scalar s).withRange range) =
        .ok (.number (.ofInt n) (table.location range))) ∧
    (∀ loc, (Tree.number (.ofInt n) loc).toJson =
      .located "Number" [("value", .number (toString n).toList)] loc) ∧
    IntegerSpelling .v1_2 (toString n).toList n ∧
    ∀ m : Int, |m| ≤ 2 ^ 53 - 1 → ∀ layout,
      (Json.ofBinary64 (.ofInt m)).text layout = (Json.ofBinary64 (.ofInt n)).text layout → m = n := by
  have hjson : ∀ m : Int, |m| ≤ 2 ^ 53 - 1 → Json.ofBinary64 (.ofInt m) = .number (toString m).toList := by
    intro m hm
    rw [Json.ofBinary64_ofInt (natAbs_le_maxSafeInteger hm), Json.ofInt_eq]
  refine ⟨fun h => h.resolvePlain_eq hsafe, ofNode_of_resolvePlain, ?_, Scalar.integerSpelling_toString n, ?_⟩
  · intro loc
    rw [Tree.toJson, hjson n hsafe]
  · intro m hm layout htext
    have hresolve : ∀ k : Int, |k| ≤ 2 ^ 53 - 1 → resolvePlain .v1_2 (toString k).toList = .int k := by
      intro k hk
      exact (PlainInteger.whole (Scalar.integerSpelling_toString k)).resolvePlain_eq hk
    rw [hjson m hm, hjson n hsafe, Json.text, Json.text] at htext
    have hm' := hresolve m hm
    rw [htext, hresolve n hsafe] at hm'
    exact (Scalar.Value.int.inj hm').symm

/-- The least safe integer, in hexadecimal digits with underscores. -/
theorem numerals_of_safe_integers_at_least :
    |(-9007199254740991 : Int)| ≤ 2 ^ 53 - 1 ∧
      PlainInteger .v1_1 "-0x1F_FFFF_FFFF_FFFF".toList (-9007199254740991) ∧
      ∃ s, scalarNode "- -0x1F_FFFF_FFFF_FFFF".toList .v1_1 2 "-0x1F_FFFF_FFFF_FFFF".toList .plain 0 none =
          .ok (.scalar s) ∧
        ∃ x loc, Tree.ofNode (.ofText "- -0x1F_FFFF_FFFF_FFFF".toList) .empty [] (.scalar s) = .ok (.number x loc) ∧
          (Tree.number x loc).toJson =
            .located "Number" [("value", .number "-9007199254740991".toList)] loc := by
  have hsafe : |(-9007199254740991 : Int)| ≤ 2 ^ 53 - 1 := by decide
  have hrow : Scalar.SpacedRow Scalar.isHexDigit "1F_FFFF_FFFF_FFFF".toList := by decide
  have hspelling : PlainInteger .v1_1 "-0x1F_FFFF_FFFF_FFFF".toList (-9007199254740991) :=
    .whole (.signedHex .minus hrow)
  obtain ⟨hvalue, hconvert, hjson, -, -⟩ :=
    @numerals_of_safe_integers .v1_1 "-0x1F_FFFF_FFFF_FFFF".toList _ hsafe
  obtain ⟨s, hs, htree⟩ := hconvert (hvalue hspelling) "- -0x1F_FFFF_FFFF_FFFF".toList 2 0
  exact ⟨hsafe, hspelling, s, hs, _, _, htree _ _ _ s.range, hjson _⟩

end LocatedYaml
