import LocatedYaml.Proofs.Binary64.Nearest

/-!
# Arithmetic of positive numbers

Sums and products of numbers without a negative sign are the exact results, rounded once (`ofRank_add`, `ofRank_mul`).
-/

namespace LocatedYaml.Binary64

variable {a b r : Nat}

/-! ### Signs and overflow -/

theorem ofRank_of_le (negative : Bool) (h : infiniteRank ≤ r) : ofRank negative r = .infinity negative :=
  dif_neg (Nat.not_lt.2 h)

theorem ofRank_of_lt (negative : Bool) (h : r < infiniteRank) : ofRank negative r = .finite negative ⟨r, h⟩ :=
  dif_pos h

theorem neg_ofRank (negative : Bool) (rank : Nat) : -ofRank negative rank = ofRank (!negative) rank := by
  rcases Nat.lt_or_ge rank infiniteRank with h | h
  · rw [ofRank_of_lt _ h, ofRank_of_lt _ h]
    rfl
  · rw [ofRank_of_le _ h, ofRank_of_le _ h]
    rfl

theorem ofInt_natCast (n : Nat) : ofInt n = ofRank false (nearestRank n 1) := by
  have hnot : ¬(n : ℤ) < 0 := by omega
  rw [ofInt, nearest, decide_eq_false hnot, Int.natAbs_natCast]

theorem ofInt_neg_natCast {n : Nat} (h : 0 < n) : ofInt (-n) = ofRank true (nearestRank n 1) := by
  have hneg : -(n : ℤ) < 0 := by omega
  rw [ofInt, nearest, decide_eq_true hneg, Int.natAbs_neg, Int.natAbs_natCast]

/-! ### Sums and products -/

private theorem ofScaled_natCast {m : Nat} {e : ℤ} (h : IsNearest r (m * 2 ^ e)) :
    ofScaled false m e = ofRank false r := by
  have hnot : ¬(m : ℤ) < 0 := by omega
  unfold ofScaled
  simp only [hnot, decide_false, ite_self, Int.natAbs_natCast, nearest]
  split
  · rename_i he
    obtain ⟨n, rfl⟩ := Int.eq_ofNat_of_zero_le he
    have hnearest := isNearest_nearestRank_one (m * Nat.pow 2 (n : ℤ).toNat)
    rw [hnearest.unique (by simpa using h)]
  · rename_i he
    obtain ⟨n, hn⟩ := Int.eq_ofNat_of_zero_le (show 0 ≤ -e by omega)
    obtain rfl : e = -n := by omega
    have hden : 0 < Nat.pow 2 (- -(n : ℤ)).toNat := Nat.pow_pos two_pos
    have hnearest := isNearest_nearestRank m hden
    rw [hnearest.unique (by simpa [zpow_neg, div_eq_mul_inv] using h)]

/-- A magnitude as a multiple of a smaller power of two. -/
private theorem significand_scaled {e : ℤ} (h : e ≤ exponent a) :
    ((significand a * Nat.pow 2 (exponent a - e).toNat : Nat) : ℚ) * 2 ^ e = magnitude a := by
  obtain ⟨n, hn⟩ := Int.eq_ofNat_of_zero_le (show 0 ≤ exponent a - e by omega)
  obtain hexponent : exponent a = n + e := by omega
  rw [hn, magnitude, hexponent, zpow_add₀ two_ne_zero]
  push_cast [Nat.pow_eq, Int.toNat_natCast, zpow_natCast]
  ring

/-- A sum is the exact sum, rounded to the nearest number. -/
theorem ofRank_add (h : IsNearest r (magnitude a + magnitude b)) :
    ofRank false a + ofRank false b = ofRank false r := by
  have har : a ≤ r := h.le_of_magnitude_le (le_add_of_nonneg_right (magnitude_nonneg b))
  have hbr : b ≤ r := h.le_of_magnitude_le (le_add_of_nonneg_left (magnitude_nonneg a))
  rcases Nat.lt_or_ge a infiniteRank with ha | ha
  · rcases Nat.lt_or_ge b infiniteRank with hb | hb
    · rw [ofRank_of_lt _ ha, ofRank_of_lt _ hb]
      have hscaled : IsNearest r ((significand a * Nat.pow 2 (exponent a - min (exponent a) (exponent b)).toNat +
          significand b * Nat.pow 2 (exponent b - min (exponent a) (exponent b)).toNat : Nat) *
            2 ^ min (exponent a) (exponent b)) := by
        rw [Nat.cast_add, add_mul, significand_scaled (min_le_left _ _), significand_scaled (min_le_right _ _)]
        exact h
      rw [← ofScaled_natCast hscaled]
      push_cast
      rfl
    · rw [ofRank_of_lt _ ha, ofRank_of_le _ hb, ofRank_of_le _ (hb.trans hbr)]
      rfl
  · rw [ofRank_of_le _ ha, ofRank_of_le _ (ha.trans har)]
    rcases Nat.lt_or_ge b infiniteRank with hb | hb
    · rw [ofRank_of_lt _ hb]
      rfl
    · rw [ofRank_of_le _ hb]
      rfl

/-- A product with a finite number that is not below one is the exact product, rounded to the nearest number. -/
theorem ofRank_mul (hb : b < infiniteRank) (hone : 1 ≤ magnitude b) (h : IsNearest r (magnitude a * magnitude b)) :
    ofRank false a * ofRank false b = ofRank false r := by
  rcases Nat.lt_or_ge a infiniteRank with ha | ha
  · rw [ofRank_of_lt _ ha, ofRank_of_lt _ hb]
    have hscaled : IsNearest r ((significand a * significand b : Nat) * 2 ^ (exponent a + exponent b)) := by
      rw [Nat.cast_mul, zpow_add₀ two_ne_zero, mul_mul_mul_comm]
      exact h
    rw [← ofScaled_natCast hscaled]
    push_cast
    rfl
  · have har : a ≤ r := h.le_of_magnitude_le (le_mul_of_one_le_right (magnitude_nonneg a) hone)
    have hzero : b ≠ 0 := by
      rintro rfl
      rw [magnitude_zero] at hone
      linarith
    rw [ofRank_of_le _ ha, ofRank_of_lt _ hb, ofRank_of_le _ (ha.trans har)]
    exact if_neg hzero

end LocatedYaml.Binary64
