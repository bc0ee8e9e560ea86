import LocatedYaml.Proofs.Scalar.Integer
import Mathlib.Data.List.TakeWhile

/-!
# Spellings of fractions

`Mantissa` and `Exponent` are the grammar of numbers with a point or an exponent in YAML 1.2.  A text can be read as a
fraction exactly when it is a mantissa with an exponent behind it (`isSome_read1_2?`).
-/

namespace LocatedYaml.Scalar

/-! ### The grammar -/

/-- Digits with an optional point, before, among or behind them. -/
inductive Mantissa : Text → Prop
  | behindPoint {digits : Text} (h : Row isDecimalDigit digits) : Mantissa ('.' :: digits)
  | whole {digits : Text} (h : Row isDecimalDigit digits) : Mantissa digits
  | withPoint {digits fraction : Text} (h : Row isDecimalDigit digits) (hfraction : ∀ c ∈ fraction, isDecimalDigit c) :
    Mantissa (digits ++ '.' :: fraction)

/-- An exponent, which may be missing. -/
inductive Exponent : Text → Prop
  | absent : Exponent []
  | marked {e : Char} {sign digits : Text} {negative : Bool} (he : e = 'e' ∨ e = 'E') (hsign : Sign sign negative)
      (h : Row isDecimalDigit digits) : Exponent (e :: (sign ++ digits))

/-! ### Reading -/

theorem isSome_readExponent? {t : Text} : (Fraction.readExponent? t).isSome ↔ Exponent t := by
  unfold Fraction.readExponent?
  split
  · exact iff_of_true rfl .absent
  · rename_i e t
    simp only
    constructor
    · intro h
      split at h
      · rename_i hform
        obtain ⟨sign, hsign, ht⟩ := exists_sign (t := t) rfl
        rw [ht]
        exact .marked hform.1 hsign (isRow_iff.1 hform.2)
      · cases h
    · intro h
      cases h with
      | @marked _ sign digits negative he hsign h =>
        rw [h.splitSign_append hsign, if_pos ⟨he, isRow_iff.2 h⟩]
        rfl

theorem Exponent.head? {t : Text} (h : Exponent t) : ∀ c, t.head? = some c → c = 'e' ∨ c = 'E' := by
  cases h with
  | absent => simp
  | marked he hsign h =>
    rintro c ⟨⟩
    exact he

private theorem isDecimalDigit_of_exponent {c : Char} (h : c = 'e' ∨ c = 'E') : isDecimalDigit c = false := by
  rcases h with rfl | rfl <;> rfl

theorem Fraction.read?_withPoint {digits fraction exponent : Text} (hdigits : ∀ c ∈ digits, isDecimalDigit c)
    (hfraction : ∀ c ∈ fraction, isDecimalDigit c) (hexponent : Exponent exponent) :
    Fraction.read? isDecimalDigit (digits ++ '.' :: (fraction ++ exponent)) =
      (Fraction.readExponent? exponent).map fun e => ⟨digits, some fraction, e⟩ := by
  have hpoint : ∀ c, ('.' :: (fraction ++ exponent)).head? = some c → isDecimalDigit c = false := by
    rintro c ⟨⟩
    rfl
  obtain ⟨htake, hdrop⟩ := span_of_head? hdigits hpoint
  obtain ⟨htake', hdrop'⟩ := span_of_head? hfraction fun c hc => isDecimalDigit_of_exponent (hexponent.head? c hc)
  simp only [Fraction.read?, htake, hdrop, htake', hdrop']

theorem Fraction.read?_whole {digits exponent : Text} (hdigits : ∀ c ∈ digits, isDecimalDigit c)
    (hexponent : Exponent exponent) :
    Fraction.read? isDecimalDigit (digits ++ exponent) =
      (Fraction.readExponent? exponent).map fun e => ⟨digits, none, e⟩ := by
  obtain ⟨htake, hdrop⟩ := span_of_head? hdigits fun c hc => isDecimalDigit_of_exponent (hexponent.head? c hc)
  simp only [Fraction.read?, htake, hdrop]
  split
  · exact absurd (hexponent.head? '.' rfl) (by decide)
  · rfl

theorem float?_of_not_word {version : Version} {t body : Text} {negative : Bool}
    (hsplit : splitSign t = (negative, body)) (hinfinity : body ∉ infinityWords) (hnan : t ∉ nanWords) :
    float? version t = (magnitude? version body).map fun x => .float (if negative then -x else x) := by
  simp only [float?, hsplit, if_neg hinfinity, if_neg hnan]

/-- All words for infinity and NaN begin with a point. -/
theorem float?_of_dot_not_mem {version : Version} {sign body : Text} {negative : Bool} (hsign : Sign sign negative)
    (hsplit : splitSign (sign ++ body) = (negative, body)) (hdot : '.' ∉ body) :
    float? version (sign ++ body) = (magnitude? version body).map fun x => .float (if negative then -x else x) := by
  have hwords : ∀ word ∈ infinityWords ++ nanWords, '.' ∈ word := by decide
  have hinfinity : body ∉ infinityWords := fun h => hdot (hwords _ (List.mem_append_left _ h))
  have hnan : sign ++ body ∉ nanWords := fun h => by
    rcases List.mem_append.1 (hwords _ (List.mem_append_right _ h)) with h | h
    · rcases hsign.text_eq with rfl | rfl | rfl <;> simp at h
    · exact hdot h
  exact float?_of_not_word hsplit hinfinity hnan

theorem isSome_read1_2? {body : Text} : (Fraction.read1_2? body).isSome ↔
    ∃ mantissa exponent, Mantissa mantissa ∧ Exponent exponent ∧ body = mantissa ++ exponent := by
  have hdigits : ∀ t : Text, ∀ c ∈ t.takeWhile isDecimalDigit, isDecimalDigit c := fun _ _ => List.mem_takeWhile_imp
  constructor
  · intro h
    obtain ⟨f, hf⟩ := Option.isSome_iff_exists.1 h
    obtain ⟨hread, hform⟩ := Option.filter_eq_some_iff.1 hf
    have hbody : body.takeWhile isDecimalDigit ++ body.dropWhile isDecimalDigit = body :=
      List.takeWhile_append_dropWhile
    simp only [Fraction.read?] at hread
    split at hread
    · rename_i t ht
      obtain ⟨e, he, rfl⟩ := Option.map_eq_some_iff.1 hread
      have hexponent := isSome_readExponent?.1 (Option.isSome_of_mem he)
      have hfraction : t.takeWhile isDecimalDigit ++ t.dropWhile isDecimalDigit = t := List.takeWhile_append_dropWhile
      rw [ht, ← hfraction] at hbody
      by_cases hwhole : body.takeWhile isDecimalDigit = []
      · have hne : t.takeWhile isDecimalDigit ≠ [] := by simpa [hwhole] using hform
        rw [hwhole, List.nil_append] at hbody
        exact ⟨_, _, .behindPoint ⟨hne, hdigits t⟩, hexponent, hbody.symm⟩
      · exact ⟨_, _, .withPoint ⟨hwhole, hdigits body⟩ (hdigits t), hexponent, by simpa using hbody.symm⟩
    · obtain ⟨e, he, rfl⟩ := Option.map_eq_some_iff.1 hread
      have hwhole : body.takeWhile isDecimalDigit ≠ [] := by simpa using hform
      exact ⟨_, _, .whole ⟨hwhole, hdigits body⟩, isSome_readExponent?.1 (Option.isSome_of_mem he), hbody.symm⟩
  · rintro ⟨mantissa, exponent, hmantissa, hexponent, rfl⟩
    obtain ⟨e, he⟩ := Option.isSome_iff_exists.1 (isSome_readExponent?.2 hexponent)
    cases hmantissa with
    | @behindPoint digits h =>
      have hnil : ∀ c ∈ ([] : Text), isDecimalDigit c := by simp
      have hread := Fraction.read?_withPoint hnil h.isDigit hexponent
      rw [List.nil_append] at hread
      rw [Fraction.read1_2?, List.cons_append, hread, he]
      simp [h.ne_nil]
    | whole h =>
      rw [Fraction.read1_2?, Fraction.read?_whole h.isDigit hexponent, he]
      simp [h.ne_nil]
    | @withPoint digits fraction h hfraction =>
      rw [Fraction.read1_2?, List.append_assoc, List.cons_append,
        Fraction.read?_withPoint h.isDigit hfraction hexponent, he]
      simp [h.ne_nil]

end LocatedYaml.Scalar
