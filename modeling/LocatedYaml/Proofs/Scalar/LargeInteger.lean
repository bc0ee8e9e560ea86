import LocatedYaml.Proofs.Binary64.Arithmetic
import LocatedYaml.Proofs.Scalar.CoreTags
import LocatedYaml.Proofs.Scalar.Fraction

/-!
# Large integers

A decimal integer beyond 64 bits is a float.  Under the tag of floats it is the nearest one.  Without a tag it is the
same float as long as the magnitude fits 127 bits; the digits of a larger one are accumulated from the left, with a
product and a sum that are rounded at each digit (`Accumulates`).  The relative error of that grows with the number of
digits (`Accumulates.error`), and the two floats can differ (`floats_of_large_integers`, `floats_of_two_pow_127`) until
both are infinite (`Accumulates.infiniteRank_le`).
-/

namespace LocatedYaml.Scalar

open Binary64

variable {digits : Text} {r k n : Nat}

theorem digitValue_le {c : Char} (h : isDecimalDigit c) : digitValue c ≤ 9 := by
  have := isDecimalDigit_iff.1 h
  rw [digitValue_of_isDecimalDigit h]
  omega

/-! ### Accumulation -/

/-- The rank that decimal digits lead to when, from the left, every product with ten and every sum is rounded. -/
inductive Accumulates : Text → Nat → Prop
  | nil : Accumulates [] 0
  | concat {digits : Text} {c : Char} {r product sum : Nat} (h : Accumulates digits r)
      (hproduct : IsNearest product (magnitude r * 10))
      (hsum : IsNearest sum (magnitude product + digitValue c)) : Accumulates (digits ++ [c]) sum

theorem exists_accumulates (digits : Text) : ∃ r, Accumulates digits r := by
  induction digits using List.reverseRecOn with
  | nil => exact ⟨0, .nil⟩
  | append_singleton digits c ih =>
    obtain ⟨r, h⟩ := ih
    obtain ⟨product, hproduct⟩ := exists_isNearest (mul_nonneg (magnitude_nonneg r) (by norm_num : (0 : ℚ) ≤ 10))
    obtain ⟨sum, hsum⟩ := exists_isNearest (add_nonneg (magnitude_nonneg product) (Nat.cast_nonneg (digitValue c)))
    exact ⟨sum, .concat h hproduct hsum⟩

private theorem accumulate_digit {c : Char} {product sum : Nat} (hc : digitValue c ≤ 2 ^ 53)
    (hproduct : IsNearest product (magnitude r * 10)) (hsum : IsNearest sum (magnitude product + digitValue c)) :
    ofRank false r * .ofInt (10 : Nat) + .ofInt (digitValue c) = ofRank false sum := by
  have hten : magnitude (nearestRank 10 1) = 10 := magnitude_nearestRank_natCast (n := 10) (by norm_num)
  rw [ofInt_natCast, ofInt_natCast, ofRank_mul (by decide +kernel) (by rw [hten]; norm_num) (by rwa [hten]),
    ofRank_add (by rwa [magnitude_nearestRank_natCast hc])]

/-- Adding up the digits in floats accumulates them. -/
theorem Accumulates.foldl_eq (h : Accumulates digits r) (hdigits : ∀ c ∈ digits, isDecimalDigit c) :
    digits.foldl (fun sum c => sum * .ofInt (10 : Nat) + .ofInt (digitValue c)) Binary64.zero = ofRank false r := by
  induction h with
  | nil => rfl
  | @concat digits c r product sum h hproduct hsum ih =>
    have hc : digitValue c ≤ 2 ^ 53 := (digitValue_le (hdigits c (by simp))).trans (by norm_num)
    rw [List.foldl_append, ih fun c hc => hdigits c (List.mem_append_left _ hc)]
    exact accumulate_digit hc hproduct hsum

/-! ### The error of the accumulation -/

/-- The relative error that `n` roundings in a row can reach. -/
def errorBound (n : Nat) : ℚ := (1 + roundoff) ^ n - 1

theorem errorBound_nonneg (n : Nat) : 0 ≤ errorBound n :=
  sub_nonneg.2 (one_le_pow₀ (le_add_of_nonneg_right roundoff_pos.le))

private theorem abs_sub_le_of_rounded {x y z : ℚ} (hz : |z - x| ≤ roundoff * x) (hx : |x - y| ≤ errorBound n * y) :
    |z - y| ≤ errorBound (n + 1) * y := by
  have hle : x ≤ y + errorBound n * y := by linarith [(abs_le.1 hx).2]
  calc |z - y| ≤ |z - x| + |x - y| := abs_sub_le z x y
    _ ≤ roundoff * (y + errorBound n * y) + errorBound n * y :=
        add_le_add (hz.trans (mul_le_mul_of_nonneg_left hle roundoff_pos.le)) hx
    _ = errorBound (n + 1) * y := by
        rw [errorBound, errorBound]
        ring

private theorem exists_magnitude_one : ∃ rank, magnitude rank = 1 := by
  obtain ⟨rank, hrank⟩ := exists_magnitude_eq (show 1 ≤ 2 ^ 53 by norm_num) 0
  exact ⟨rank, by simpa using hrank⟩

/-- Zero is not rounded, and no number from one on is too small for the relative error of rounding. -/
private theorem rounded_of_zero_or_one_le {q : ℚ} (h : IsNearest r q) (hq : q = 0 ∨ 1 ≤ q) :
    (magnitude r = 0 ∨ 1 ≤ magnitude r) ∧ |magnitude r - q| ≤ roundoff * q := by
  rcases hq with rfl | hq
  · rw [← magnitude_zero] at h
    obtain rfl := h.eq_of_magnitude
    simp [magnitude_zero]
  · refine ⟨Or.inr (h.le_magnitude exists_magnitude_one hq), h.abs_sub_le (le_trans ?_ hq)⟩
    exact zpow_le_one_of_nonpos₀ one_le_two (by norm_num)

/-- One more digit is two more roundings. -/
private theorem error_of_digit {product sum digit : Nat} {v : ℚ} (hr : magnitude r = 0 ∨ 1 ≤ magnitude r)
    (herror : |magnitude r - v| ≤ errorBound n * v) (hproduct : IsNearest product (magnitude r * 10))
    (hsum : IsNearest sum (magnitude product + digit)) :
    (magnitude sum = 0 ∨ 1 ≤ magnitude sum) ∧
      |magnitude sum - (v * 10 + digit)| ≤ errorBound (n + 2) * (v * 10 + digit) := by
  have hten : magnitude r * 10 = 0 ∨ 1 ≤ magnitude r * 10 :=
    hr.imp (fun h => by rw [h, zero_mul]) fun h => by linarith
  obtain ⟨hp, hproducterror⟩ := rounded_of_zero_or_one_le hproduct hten
  have hexact : magnitude product + digit = 0 ∨ 1 ≤ magnitude product + digit := by
    rcases Nat.eq_zero_or_pos digit with rfl | hdigit
    · simpa using hp
    · have : (1 : ℚ) ≤ digit := by exact_mod_cast hdigit
      exact Or.inr (by linarith [magnitude_nonneg product])
  obtain ⟨hs, hsumerror⟩ := rounded_of_zero_or_one_le hsum hexact
  have hscaled : |magnitude r * 10 - v * 10| ≤ errorBound n * (v * 10) := by
    rw [← sub_mul, abs_mul, ← mul_assoc, abs_of_pos (by norm_num : (0 : ℚ) < 10)]
    exact mul_le_mul_of_nonneg_right herror (by norm_num)
  have hadded : |magnitude product + digit - (v * 10 + digit)| ≤ errorBound (n + 1) * (v * 10 + digit) := by
    rw [add_sub_add_right_eq_sub]
    refine (abs_sub_le_of_rounded hproducterror hscaled).trans ?_
    exact mul_le_mul_of_nonneg_left (le_add_of_nonneg_right digit.cast_nonneg) (errorBound_nonneg _)
  exact ⟨hs, abs_sub_le_of_rounded hsumerror hadded⟩

/-- The relative error of accumulated digits is at most that of two roundings for each digit. -/
theorem Accumulates.error (h : Accumulates digits r) (hdigits : ∀ c ∈ digits, isDecimalDigit c) :
    |magnitude r - placeValue 10 digits| ≤ errorBound (2 * digits.length) * placeValue 10 digits := by
  suffices (magnitude r = 0 ∨ 1 ≤ magnitude r) ∧
      |magnitude r - placeValue 10 digits| ≤ errorBound (2 * digits.length) * placeValue 10 digits from this.2
  induction h with
  | nil => simp [magnitude_zero, placeValue_nil]
  | @concat digits c r product sum h hproduct hsum ih =>
    obtain ⟨hr, herror⟩ := ih fun c hc => hdigits c (List.mem_append_left _ hc)
    rw [placeValue_concat (hdigits c (by simp)), List.length_append]
    push_cast
    exact error_of_digit hr herror hproduct hsum

/-! ### Overflow -/

/-- Digits of a number from `10 ^ k` on are accumulated to no less than `q`. -/
def Floor (k : Nat) (q : ℚ) : Prop :=
  ∀ digits r, (∀ c ∈ digits, isDecimalDigit c) → 10 ^ k ≤ placeValue 10 digits → Accumulates digits r → q ≤ magnitude r

theorem floor_zero : Floor 0 1 := by
  intro digits r hdigits hvalue h
  induction h with
  | nil => exact absurd hvalue (Nat.not_succ_le_zero 0)
  | @concat digits c r product sum h hproduct hsum ih =>
    refine hsum.le_magnitude exists_magnitude_one ?_
    rw [placeValue_concat (hdigits c (by simp)), pow_zero] at hvalue
    rcases Nat.eq_zero_or_pos (placeValue 10 digits) with hzero | hpos
    · have hdigit : (1 : ℚ) ≤ digitValue c := by
        rw [hzero, Nat.zero_mul, Nat.zero_add] at hvalue
        exact_mod_cast hvalue
      linarith [magnitude_nonneg product]
    · have hr := ih (fun c hc => hdigits c (List.mem_append_left _ hc)) hpos
      have hproduct' : 1 ≤ magnitude product := hproduct.le_magnitude exists_magnitude_one (by linarith)
      exact le_add_of_le_of_nonneg hproduct' (Nat.cast_nonneg _)

theorem Floor.mono {q q' : ℚ} (h : Floor k q) (hle : q' ≤ q) : Floor k q' :=
  fun digits r hdigits hvalue haccumulates => hle.trans (h digits r hdigits hvalue haccumulates)

/-- One more place is ten times as much as long as that need not be rounded. -/
theorem Floor.succ {q : ℚ} (h : Floor k q) (hq : ∃ rank, magnitude rank = q * 10) : Floor (k + 1) (q * 10) := by
  intro digits r hdigits hvalue haccumulates
  cases haccumulates with
  | nil => exact absurd hvalue (Nat.not_le.2 (Nat.pow_pos (by norm_num)))
  | @concat digits c r product sum haccumulates hproduct hsum =>
    have hc := hdigits c (by simp)
    have hdigit := digitValue_le hc
    rw [placeValue_concat hc, pow_succ] at hvalue
    have hr := h digits r (fun c hc => hdigits c (List.mem_append_left _ hc)) (by omega) haccumulates
    have hproduct' : q * 10 ≤ magnitude product := hproduct.le_magnitude hq (by linarith)
    exact hsum.le_magnitude hq (le_add_of_le_of_nonneg hproduct' (Nat.cast_nonneg _))

/-- Powers of ten up to `10 ^ 22` are magnitudes, also behind a power of two. -/
theorem Floor.block {e : Nat} (h : Floor k (2 ^ e)) : ∀ i ≤ 22, Floor (k + i) (2 ^ e * 10 ^ i) := by
  intro i hi
  induction i with
  | zero => simpa using h
  | succ i ih =>
    rw [pow_succ, ← mul_assoc]
    refine (ih (by omega)).succ ?_
    have hfive : 5 ^ (i + 1) ≤ 2 ^ 53 := (Nat.pow_le_pow_right (by norm_num) hi).trans (by norm_num)
    obtain ⟨rank, hrank⟩ := exists_magnitude_eq hfive (e + (i + 1))
    refine ⟨rank, ?_⟩
    calc magnitude rank = 5 ^ (i + 1) * 2 ^ (e + (i + 1)) := by rw [hrank, Nat.cast_pow, Nat.cast_ofNat]
      _ = 2 ^ e * (5 * 2) ^ (i + 1) := by rw [mul_pow, pow_add]; ring
      _ = 2 ^ e * 10 ^ i * 10 := by rw [pow_succ, ← mul_assoc]; norm_num

/-- Rounded down to a power of two every 22 places, an accumulated number still grows by 73 bits. -/
theorem floor_blocks (j : Nat) : Floor (22 * j) (2 ^ (73 * j)) := by
  induction j with
  | zero => simpa using floor_zero
  | succ j ih =>
    have hbits : (2 : ℚ) ^ (73 * (j + 1)) ≤ 2 ^ (73 * j) * 10 ^ 22 := by
      rw [Nat.mul_succ, pow_add]
      exact mul_le_mul_of_nonneg_left (by norm_num) (by positivity)
    exact (ih.block 22 le_rfl).mono hbits

private theorem two_pow_le : (2 : ℚ) ^ 1024 ≤ 2 ^ (73 * 14) * 10 ^ 1 := by
  rw [show 1024 = 73 * 14 + 2 by norm_num, pow_add]
  exact mul_le_mul_of_nonneg_left (by norm_num) (by positivity)

/-- From `10 ^ 309` on, accumulated digits are infinite. -/
theorem Accumulates.infiniteRank_le (h : Accumulates digits r) (hdigits : ∀ c ∈ digits, isDecimalDigit c)
    (hvalue : 10 ^ 309 ≤ placeValue 10 digits) : infiniteRank ≤ r := by
  have hfloor : Floor 309 (2 ^ (73 * 14) * 10 ^ 1) := (floor_blocks 14).block 1 (by norm_num)
  rw [← magnitude_strictMono.le_iff_le, magnitude_infiniteRank]
  exact two_pow_le.trans (hfloor digits r hdigits hvalue h)

theorem infiniteRank_le_of_isNearest (h : IsNearest r n) (hvalue : 10 ^ 309 ≤ n) : infiniteRank ≤ r := by
  have hpow : (2 : ℚ) ^ (73 * 14) * 10 ^ 1 ≤ 10 ^ (22 * 14 + 1) := by
    rw [pow_mul, pow_add, pow_mul]
    gcongr
    norm_num
  have hcast : ∀ k : Nat, 10 ^ k ≤ n → (10 : ℚ) ^ k ≤ n := fun k hk => by exact_mod_cast hk
  refine h.le_of_magnitude_le ?_
  rw [magnitude_infiniteRank]
  exact two_pow_le.trans (hpow.trans (hcast 309 hvalue))

/-! ### Resolution -/

section Resolution

variable {sign : Text} {negative : Bool}

theorem nearestRank_natural (n : Nat) : Decimal.nearestRank ⟨n, 0⟩ = nearestRank n 1 := by
  have hscale : Decimal.boundedScale ⟨n, 0⟩ = 0 := by
    simp only [Decimal.boundedScale]
    omega
  simp [Decimal.nearestRank, hscale]

theorem digitsValue_of_row (h : Row isDecimalDigit digits) : digitsValue 10 digits = placeValue 10 digits := by
  rw [← digitsValue_eq_placeValue, h.withoutUnderscores rfl]

/-- Digits read as a fraction are the number nearest to the integer. -/
theorem float?_decimal (hsign : Sign sign negative) (h : Row isDecimalDigit digits) :
    float? .v1_2 (sign ++ digits) = some (.float (ofRank negative (nearestRank (placeValue 10 digits) 1))) := by
  have hread : Fraction.read1_2? digits = some ⟨digits, none, none⟩ := by
    have hwhole := Fraction.read?_whole h.isDigit .absent
    rw [List.append_nil] at hwhole
    rw [Fraction.read1_2?, hwhole]
    simp [Fraction.readExponent?, h.ne_nil]
  have hdecimal : Fraction.toDecimal ⟨digits, none, none⟩ = ⟨placeValue 10 digits, 0⟩ := by
    have hnil : withoutUnderscores [] = [] := rfl
    simp [Fraction.toDecimal, hnil, h.withoutUnderscores rfl, digitsValue_of_row h]
  have hdot : '.' ∉ digits := fun hmem => absurd (h.isDigit '.' hmem) (by decide)
  simp only [float?_of_dot_not_mem hsign (h.splitSign_append hsign) hdot, magnitude?, hread, Option.map_some, hdecimal,
    Decimal.toBinary64, nearestRank_natural]
  cases negative with
  | false => rfl
  | true => exact congrArg (fun x => some (Value.float x)) (neg_ofRank false _)

theorem toBinary64_decimal_of_lt (h : Row isDecimalDigit digits) (hpos : 0 < placeValue 10 digits)
    (hlt : placeValue 10 digits < Nat.pow 2 127) :
    Numeral.toBinary64 ⟨negative, 10, digits⟩ = ofRank negative (nearestRank (placeValue 10 digits) 1) := by
  simp only [Numeral.toBinary64, h.withoutUnderscores rfl, digitsValue_of_row h, if_pos hlt]
  cases negative with
  | false => exact ofInt_natCast _
  | true => exact ofInt_neg_natCast hpos

theorem toBinary64_decimal_of_le (h : Row isDecimalDigit digits) (hr : Accumulates digits r)
    (hle : Nat.pow 2 127 ≤ placeValue 10 digits) : Numeral.toBinary64 ⟨negative, 10, digits⟩ = ofRank negative r := by
  have hfold := hr.foldl_eq h.isDigit
  simp only [Numeral.toBinary64, h.withoutUnderscores rfl, digitsValue_of_row h, if_neg (Nat.not_lt.2 hle), hfold]
  cases negative with
  | false => rfl
  | true => exact neg_ofRank false r

/-- A decimal integer beyond 64 bits under the tag of floats is the nearest float.  As a plain scalar it is the same
float when its magnitude fits 127 bits; otherwise its digits are accumulated. -/
theorem floats_of_large_integers (hsign : Sign sign negative) (h : Row isDecimalDigit digits)
    (hrange : ¬(-2 ^ 63 ≤ signed negative (placeValue 10 digits) ∧
      signed negative (placeValue 10 digits) ≤ 2 ^ 63 - 1)) :
    ∃ nearest plain, IsNearest nearest (placeValue 10 digits) ∧
      (∀ style, resolve .v1_2 style (some CoreType.float.tag) (sign ++ digits) =
        some (.float (ofRank negative nearest))) ∧
      resolvePlain .v1_2 (sign ++ digits) = .float (ofRank negative plain) ∧
      (placeValue 10 digits < 2 ^ 127 → plain = nearest) ∧
      (2 ^ 127 ≤ placeValue 10 digits → Accumulates digits plain ∧
        |magnitude plain - placeValue 10 digits| ≤ errorBound (2 * digits.length) * placeValue 10 digits) ∧
      (10 ^ 309 ≤ placeValue 10 digits → infiniteRank ≤ nearest ∧ infiniteRank ≤ plain) := by
  have hmin : minInt = -2 ^ 63 := by decide
  have hmax : maxInt = 2 ^ 63 - 1 := by decide
  have hread : Numeral.read? .v1_2 (sign ++ digits) = some ⟨negative, 10, digits⟩ := Numeral.read1_2?_decimal hsign h
  obtain ⟨numeral, hnumeral, hint⟩ := (IntegerSpelling.decimal hsign h).int?_eq
  obtain rfl := Option.some.inj (hread.symm.trans hnumeral)
  rw [hmin, hmax, if_neg hrange] at hint
  have hplain := resolvePlain_eq_iff.2 (.int hint)
  have hnearest := isNearest_nearestRank_one (placeValue 10 digits)
  have htagged : ∀ style, resolve .v1_2 style (some CoreType.float.tag) (sign ++ digits) =
      some (.float (ofRank negative (nearestRank (placeValue 10 digits) 1))) := by
    intro style
    rw [resolve_tag rfl, resolveAs, float?_decimal hsign h]
    rfl
  have hinfinite : 10 ^ 309 ≤ placeValue 10 digits → infiniteRank ≤ nearestRank (placeValue 10 digits) 1 :=
    infiniteRank_le_of_isNearest hnearest
  rcases Nat.lt_or_ge (placeValue 10 digits) (2 ^ 127) with hlt | hle
  · have hpos : 0 < placeValue 10 digits := by
      refine Nat.pos_of_ne_zero fun hzero => hrange ?_
      rw [hzero]
      cases negative <;> decide
    rw [toBinary64_decimal_of_lt h hpos hlt] at hplain
    exact ⟨_, _, hnearest, htagged, hplain, fun _ => rfl, fun hle => absurd hlt (Nat.not_lt.2 hle),
      fun hvalue => ⟨hinfinite hvalue, hinfinite hvalue⟩⟩
  · obtain ⟨plain, hsum⟩ := exists_accumulates digits
    rw [toBinary64_decimal_of_le h hsum hle] at hplain
    exact ⟨_, plain, hnearest, htagged, hplain, fun hlt => absurd hlt (Nat.not_lt.2 hle),
      fun _ => ⟨hsum, hsum.error h.isDigit⟩,
      fun hvalue => ⟨hinfinite hvalue, hsum.infiniteRank_le h.isDigit hvalue⟩⟩

/-- The integer just below the least one has the nearest float with the tag and without it. -/
theorem floats_of_large_integers_below_least_integer :
    Sign ['-'] true ∧ Row isDecimalDigit "9223372036854775809".toList ∧
      ¬(-2 ^ 63 ≤ signed true (placeValue 10 "9223372036854775809".toList) ∧
        signed true (placeValue 10 "9223372036854775809".toList) ≤ 2 ^ 63 - 1) ∧
      resolve .v1_2 .plain (some CoreType.float.tag) "-9223372036854775809".toList =
        some (resolvePlain .v1_2 "-9223372036854775809".toList) := by
  have h : Row isDecimalDigit "9223372036854775809".toList := by decide
  have hrange : ¬(-2 ^ 63 ≤ signed true (placeValue 10 "9223372036854775809".toList) ∧
      signed true (placeValue 10 "9223372036854775809".toList) ≤ 2 ^ 63 - 1) := by decide
  refine ⟨.minus, h, hrange, ?_⟩
  obtain ⟨nearest, plain, -, htagged, hplain, hequal, -⟩ := floats_of_large_integers .minus h hrange
  have hlt : placeValue 10 "9223372036854775809".toList < 2 ^ 127 := by decide
  rw [← hequal hlt, ← hplain] at htagged
  exact htagged .plain

/-- The least magnitude whose digits are accumulated: the accumulated number is not the nearest one. -/
theorem floats_of_two_pow_127 :
    placeValue 10 "170141183460469231731687303715884105728".toList = 2 ^ 127 ∧
      resolvePlain .v1_2 "170141183460469231731687303715884105728".toList = .float (ofBits 0x47e0000000000003) ∧
      resolve .v1_2 .plain (some CoreType.float.tag) "170141183460469231731687303715884105728".toList =
        some (.float (ofBits 0x47e0000000000000)) := by
  decide +kernel

end Resolution

end LocatedYaml.Scalar
