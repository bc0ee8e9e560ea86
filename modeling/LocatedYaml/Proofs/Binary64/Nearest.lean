import LocatedYaml.Binary64.Basic
import Mathlib.Algebra.Order.Archimedean.Basic
import Mathlib.Algebra.Order.Field.Power
import Mathlib.Data.Rat.Cast.Order
import Mathlib.Tactic.FieldSimp
import Mathlib.Tactic.GCongr
import Mathlib.Tactic.Linarith
import Mathlib.Tactic.Positivity
import Mathlib.Tactic.Ring

/-!
# Rounding to the nearest number

`IsNearest rank q` says that the magnitude of a rank is nearest to a rational number, a tie going to the even
significand.  `nearestRank` finds it for every quotient (`isNearest_nearestRank`), and there is only one
(`IsNearest.unique`).  Rounding is monotone (`IsNearest.mono`), its relative error is at most `roundoff`
(`IsNearest.abs_sub_le`), and integers up to `2 ^ 53` are not changed by it (`magnitude_nearestRank_natCast`).

Behind the last finite magnitude the ranks count on as if exponents had no bound; a number rounded to one of these is
infinite.
-/

namespace LocatedYaml.Binary64

/-! ### Magnitudes -/

/-- The magnitude with this rank. -/
def magnitude (rank : Nat) : ℚ := significand rank * 2 ^ exponent rank

/-- The distance of the multiples of which `p` binades above the smallest ones are made. -/
def unit (p : Nat) : ℚ := 2 ^ ((p : ℤ) - 1074)

theorem unit_pos (p : Nat) : 0 < unit p := zpow_pos (by norm_num) _

theorem unit_add (p k : Nat) : unit (p + k) = 2 ^ k * unit p := by
  rw [unit, unit, ← zpow_natCast, ← zpow_add₀ (by norm_num)]
  congr 1
  push_cast
  ring

theorem binade_pos : 0 < binade := by decide

/-- A rank is a number of binades and a significand. -/
theorem exists_binades (rank : Nat) :
    ∃ p m, rank = p * binade + m ∧ m < 2 * binade ∧ (p = 0 ∨ binade ≤ m) := by
  rcases Nat.lt_or_ge rank (2 * binade) with h | h
  · exact ⟨0, rank, by omega, h, Or.inl rfl⟩
  · have hdiv := Nat.div_add_mod' rank binade
    have hmod := Nat.mod_lt rank binade_pos
    have hpos : 2 ≤ rank / binade := (Nat.le_div_iff_mul_le binade_pos).2 h
    obtain ⟨p, hp⟩ : ∃ p, rank / binade = p + 1 := ⟨rank / binade - 1, by omega⟩
    refine ⟨p, binade + rank % binade, ?_, by omega, Or.inr (by omega)⟩
    rw [hp, Nat.succ_mul] at hdiv
    omega

theorem magnitude_of_lt {p m : Nat} (hm : m < 2 * binade) (hp : p = 0 ∨ binade ≤ m) :
    magnitude (p * binade + m) = m * unit p := by
  rcases Nat.eq_zero_or_pos p with rfl | hpos
  · rw [Nat.zero_mul, Nat.zero_add, magnitude, significand, exponent, if_pos hm, if_pos hm]
    rfl
  · have hle : binade ≤ m := hp.resolve_left (by omega)
    have hge : ¬p * binade + m < 2 * binade := by
      have := Nat.le_mul_of_pos_left binade hpos
      omega
    have hrank : p * binade + m = (m - binade) + (p + 1) * binade := by
      rw [Nat.succ_mul]
      omega
    have hmod : (p * binade + m) % binade = m - binade := by
      rw [hrank, Nat.add_mul_mod_self_right, Nat.mod_eq_of_lt (by omega)]
    have hdiv : (p * binade + m) / binade = p + 1 := by
      rw [hrank, Nat.add_mul_div_right _ _ binade_pos, Nat.div_eq_of_lt (by omega), Nat.zero_add]
    rw [magnitude, significand, exponent, if_neg hge, if_neg hge, hmod, hdiv, Nat.add_sub_cancel' hle, unit]
    congr 2
    push_cast
    ring

/-- The first magnitude of the next binade is written either way. -/
theorem magnitude_of_le {p m : Nat} (hm : m ≤ 2 * binade) (hp : p = 0 ∨ binade ≤ m) :
    magnitude (p * binade + m) = m * unit p := by
  rcases Nat.lt_or_eq_of_le hm with h | rfl
  · exact magnitude_of_lt h hp
  · have hrank : p * binade + 2 * binade = (p + 1) * binade + binade := by ring
    rw [hrank, magnitude_of_lt (by have := binade_pos; omega) (Or.inr (Nat.le_refl _)),
      unit_add]
    push_cast
    ring

theorem magnitude_zero : magnitude 0 = 0 := by
  rw [magnitude]
  simp [significand, binade_pos]

theorem magnitude_strictMono : StrictMono magnitude := by
  refine strictMono_nat_of_lt_succ fun rank => ?_
  obtain ⟨p, m, rfl, hm, hp⟩ := exists_binades rank
  rw [Nat.add_assoc, magnitude_of_lt hm hp, magnitude_of_le hm (hp.imp_right fun h => h.trans (Nat.le_succ m))]
  refine mul_lt_mul_of_pos_right ?_ (unit_pos p)
  exact_mod_cast Nat.lt_succ_self m

/-- Behind the finite magnitudes the next power of two follows. -/
theorem magnitude_infiniteRank : magnitude infiniteRank = 2 ^ 1024 := by
  have hrank : infiniteRank = 2046 * binade + binade := by
    rw [infiniteRank]
    ring
  have hbinade : (binade : ℚ) = 2 ^ 52 := by norm_num [binade]
  have hunit : unit 2046 = 2 ^ 972 := by
    rw [unit, ← zpow_natCast]
    rfl
  rw [hrank, magnitude_of_lt (by have := binade_pos; omega) (Or.inr le_rfl), hbinade, hunit, ← pow_add]

theorem magnitude_nonneg (rank : Nat) : 0 ≤ magnitude rank :=
  magnitude_zero ▸ magnitude_strictMono.monotone (Nat.zero_le rank)

/-- Every magnitude is a multiple of a unit, or lies below the binade that the unit belongs to. -/
theorem magnitude_cases (rank p : Nat) :
    (∃ k : Nat, magnitude rank = k * unit p) ∨ (p ≠ 0 ∧ magnitude rank < binade * unit p) := by
  obtain ⟨q, m, rfl, hm, hq⟩ := exists_binades rank
  rw [magnitude_of_lt hm hq]
  rcases Nat.lt_or_ge q p with h | h
  · right
    obtain ⟨k, rfl⟩ := Nat.exists_eq_add_of_lt h
    refine ⟨by omega, ?_⟩
    have hunit : unit (q + k + 1) = 2 ^ k * 2 * unit q := by
      rw [Nat.add_assoc, unit_add, pow_succ]
    have hm' : (m : ℚ) < 2 * binade := by exact_mod_cast hm
    have hk : (1 : ℚ) ≤ 2 ^ k := one_le_pow₀ (by norm_num)
    calc (m : ℚ) * unit q < 2 * binade * unit q := mul_lt_mul_of_pos_right hm' (unit_pos q)
      _ ≤ 2 ^ k * (2 * binade * unit q) := le_mul_of_one_le_left (by have := unit_pos q; positivity) hk
      _ = binade * unit (q + k + 1) := by rw [hunit]; ring
  · left
    obtain ⟨k, rfl⟩ := Nat.exists_eq_add_of_le h
    refine ⟨m * 2 ^ k, ?_⟩
    rw [unit_add]
    push_cast
    ring

/-! ### Nearest ranks -/

/-- The magnitude of the rank is nearest to a number; of two that are equally near it is the one with the even
significand. -/
structure IsNearest (rank : Nat) (q : ℚ) : Prop where
  le : ∀ other, |magnitude rank - q| ≤ |magnitude other - q|
  even : ∀ other, other ≠ rank → |magnitude other - q| = |magnitude rank - q| → Even (significand rank)

theorem even_significand_iff (rank : Nat) : Even (significand rank) ↔ Even rank := by
  have hbinade : Even binade := ⟨Nat.pow 2 51, by decide⟩
  unfold significand
  split
  · rfl
  · have hdiv := Nat.div_add_mod' rank binade
    rw [← hdiv, Nat.add_comm binade, Nat.even_add, iff_true_right hbinade, Nat.even_add,
      iff_true_left (hbinade.mul_left _)]
    simp

namespace IsNearest

variable {r s : Nat} {q q' : ℚ}

theorem magnitude_self (rank : Nat) : IsNearest rank (magnitude rank) where
  le other := by simp
  even other hne h := by
    rw [sub_self, abs_zero, abs_eq_zero, sub_eq_zero] at h
    exact absurd (magnitude_strictMono.injective h) hne

/-- Of two ranks the nearer one is found by the middle between them. -/
private theorem le_middle (h : IsNearest r q) (hrs : r < s) : 2 * q ≤ magnitude r + magnitude s := by
  have hlt := magnitude_strictMono hrs
  have hle := h.le s
  by_contra hmiddle
  rw [abs_of_nonpos (by linarith)] at hle
  rcases abs_cases (magnitude s - q) with ⟨habs, -⟩ | ⟨habs, -⟩ <;> rw [habs] at hle <;> linarith

private theorem middle_le (h : IsNearest s q) (hrs : r < s) : magnitude r + magnitude s ≤ 2 * q := by
  have hlt := magnitude_strictMono hrs
  have hle := h.le r
  by_contra hmiddle
  rw [abs_of_nonneg (by linarith)] at hle
  rcases abs_cases (magnitude r - q) with ⟨habs, -⟩ | ⟨habs, -⟩ <;> rw [habs] at hle <;> linarith

/-- Two different ranks cannot both be nearest: of two neighbours only one is even, and between others lies a third. -/
private theorem not_both (hr : IsNearest r q) (hs : IsNearest s q) : ¬r < s := by
  intro hrs
  have hlt := magnitude_strictMono hrs
  have hmiddle := le_antisymm (hr.le_middle hrs) (hs.middle_le hrs)
  have htie : |magnitude s - q| = |magnitude r - q| := le_antisymm (hs.le r) (hr.le s)
  have hreven := (even_significand_iff r).1 (hr.even s hrs.ne' htie)
  have hseven := (even_significand_iff s).1 (hs.even r hrs.ne htie.symm)
  rw [Nat.even_iff] at hreven hseven
  have hbetween := hr.le (r + 1)
  have hleft := magnitude_strictMono (Nat.lt_succ_self r)
  have hright := magnitude_strictMono (show r + 1 < s by omega)
  rw [abs_of_nonpos (a := magnitude r - q) (by linarith)] at hbetween
  rcases abs_cases (magnitude (r + 1) - q) with ⟨habs, -⟩ | ⟨habs, -⟩ <;> rw [habs] at hbetween <;> linarith

theorem unique (hr : IsNearest r q) (hs : IsNearest s q) : r = s :=
  Nat.le_antisymm (Nat.not_lt.1 (hs.not_both hr)) (Nat.not_lt.1 (hr.not_both hs))

/-- Rounding is monotone. -/
theorem mono (hr : IsNearest r q) (hs : IsNearest s q') (h : q ≤ q') : r ≤ s := by
  by_contra hlt
  have hlt := Nat.not_le.1 hlt
  have hq : q' = q := by linarith [hs.le_middle hlt, hr.middle_le hlt]
  exact hlt.ne (hs.unique (hq ▸ hr))

theorem eq_of_magnitude (h : IsNearest r (magnitude s)) : r = s := h.unique (magnitude_self s)

/-- What is not below a magnitude is not rounded below it. -/
theorem le_of_magnitude_le (h : IsNearest r q) (hle : magnitude s ≤ q) : s ≤ r := (magnitude_self s).mono h hle

theorem le_magnitude (h : IsNearest r q) (hmagnitude : ∃ rank, magnitude rank = q') (hle : q' ≤ q) :
    q' ≤ magnitude r := by
  obtain ⟨rank, rfl⟩ := hmagnitude
  exact magnitude_strictMono.monotone (h.le_of_magnitude_le hle)

end IsNearest

/-! ### Rounding to integers -/

/-- The integer `m` is nearest to a number; of two that are equally near it is the even one. -/
structure IsRounded (m : Nat) (x : ℚ) : Prop where
  le : |m - x| ≤ 1 / 2
  even : |m - x| = 1 / 2 → Even m

/-- A quotient is its integer part and a fraction below one, which the remainder compares with one half. -/
private theorem exists_fraction (num : Nat) {den : Nat} (hden : 0 < den) :
    ∃ f : ℚ, (num : ℚ) / den = (num / den : Nat) + f ∧ 0 ≤ f ∧ f < 1 ∧
      (2 * (num % den) < den ↔ f < 1 / 2) ∧ (2 * (num % den) = den ↔ f = 1 / 2) := by
  have hpos : (0 : ℚ) < den := by exact_mod_cast hden
  have hdiv : ((num / den : Nat) : ℚ) * den + (num % den : Nat) = num := by exact_mod_cast Nat.div_add_mod' num den
  have hmod : ((num % den : Nat) : ℚ) < den := by exact_mod_cast Nat.mod_lt num hden
  refine ⟨((num % den : Nat) : ℚ) / den, ?_, by positivity, (div_lt_one hpos).2 hmod, ?_, ?_⟩
  · field_simp
    linarith
  · rw [div_lt_div_iff₀ hpos two_pos, one_mul, mul_comm]
    exact_mod_cast Iff.rfl
  · rw [div_eq_div_iff hpos.ne' two_ne_zero, one_mul, mul_comm]
    exact_mod_cast Iff.rfl

theorem isRounded_roundQuotient (num : Nat) {den : Nat} (hden : 0 < den) :
    IsRounded (roundQuotient num den) (num / den) := by
  obtain ⟨f, hdiv, h0, h1, hlt, heq⟩ := exists_fraction num hden
  rw [roundQuotient, hdiv]
  split
  · rename_i h
    have habs : |((num / den : Nat) : ℚ) - ((num / den : Nat) + f)| = f := by
      rw [sub_add_cancel_left, abs_neg, abs_of_nonneg h0]
    constructor
    · rw [habs]
      exact h.elim (fun h => (hlt.1 h).le) fun h => (heq.1 h.1).le
    · rw [habs]
      intro htie
      exact Nat.even_iff.2 (h.resolve_left fun h => (hlt.1 h).ne htie).2
  · rename_i h
    rw [not_or, hlt, heq, not_and] at h
    have habs : |((num / den + 1 : Nat) : ℚ) - ((num / den : Nat) + f)| = 1 - f := by
      rw [Nat.cast_succ, add_sub_add_left_eq_sub, abs_of_nonneg (by linarith)]
    constructor
    · rw [habs]
      linarith [not_lt.1 h.1]
    · rw [habs]
      intro htie
      rw [Nat.even_add_one, Nat.even_iff]
      exact h.2 (by linarith)

namespace IsRounded

variable {m : Nat} {x : ℚ}

/-- The integer next to `m` is not nearer. -/
theorem half_le (h : IsRounded m x) {k : Nat} (hk : k ≠ m) : 1 / 2 ≤ |(k : ℚ) - x| := by
  have hdist : 1 ≤ |(k : ℚ) - m| := by
    have : 1 ≤ |(k : ℤ) - m| := Int.one_le_abs (sub_ne_zero.2 (by exact_mod_cast hk))
    exact_mod_cast this
  have htriangle := abs_sub_le (k : ℚ) x m
  rw [abs_sub_comm x] at htriangle
  linarith [h.le]

theorem le_abs (h : IsRounded m x) (k : Nat) : |(m : ℚ) - x| ≤ |(k : ℚ) - x| := by
  rcases eq_or_ne k m with rfl | hk
  · exact le_rfl
  · exact h.le.trans (h.half_le hk)

/-- Rounding does not leave an interval between integers. -/
theorem le_of_le (h : IsRounded m x) {k : Nat} (hk : x ≤ k) : m ≤ k := by
  have := (abs_le.1 h.le).2
  have : (m : ℚ) < k + 1 := by linarith
  exact Nat.lt_succ_iff.1 (by exact_mod_cast this)

theorem le_of_ge (h : IsRounded m x) {k : Nat} (hk : (k : ℚ) ≤ x) : k ≤ m := by
  have := (abs_le.1 h.le).1
  have : (k : ℚ) < m + 1 := by linarith
  exact Nat.lt_succ_iff.1 (by exact_mod_cast this)

end IsRounded

/-! ### The nearest rank of a quotient -/

private theorem abs_mul_unit_sub (x q : ℚ) (p : Nat) : |x * unit p - q| = |x - q / unit p| * unit p := by
  have hunit := unit_pos p
  rw [← abs_of_pos hunit, ← abs_mul, abs_of_pos hunit, sub_mul, div_mul_cancel₀ _ hunit.ne']

/-- A number rounded to a multiple of the unit of its binade is rounded to the nearest magnitude. -/
theorem isNearest_of_isRounded {p m : Nat} {q : ℚ} (hround : IsRounded m (q / unit p))
    (hlt : q < 2 * binade * unit p) (hle : p = 0 ∨ binade * unit p ≤ q) : IsNearest (p * binade + m) q := by
  have hunit := unit_pos p
  have hm : m ≤ 2 * binade := hround.le_of_le (by
    rw [div_le_iff₀ hunit]
    push_cast
    exact hlt.le)
  have hp : p = 0 ∨ binade ≤ m := hle.imp_right fun h => hround.le_of_ge ((le_div_iff₀ hunit).2 h)
  have hrank := magnitude_of_le hm hp
  -- a magnitude below the binade of the number is farther away than the first one of that binade
  have hbelow : ∀ other, p ≠ 0 ∧ magnitude other < binade * unit p →
      |(m : ℚ) * unit p - q| < |magnitude other - q| := by
    intro other h
    have hq := hle.resolve_left h.1
    calc |(m : ℚ) * unit p - q| ≤ |(binade : ℚ) * unit p - q| := by
          rw [abs_mul_unit_sub, abs_mul_unit_sub]
          exact mul_le_mul_of_nonneg_right (hround.le_abs binade) hunit.le
      _ < |magnitude other - q| := by
          rw [abs_of_nonpos (by linarith), abs_of_nonpos (by linarith [h.2])]
          linarith [h.2]
  constructor
  · intro other
    rw [hrank]
    rcases magnitude_cases other p with ⟨k, hk⟩ | h
    · rw [hk, abs_mul_unit_sub, abs_mul_unit_sub]
      exact mul_le_mul_of_nonneg_right (hround.le_abs k) hunit.le
    · exact (hbelow other h).le
  · intro other hne htie
    rw [hrank] at htie
    rcases magnitude_cases other p with ⟨k, hk⟩ | h
    · have hkm : k ≠ m := by
        rintro rfl
        exact hne (magnitude_strictMono.injective (hk.trans hrank.symm))
      rw [hk, abs_mul_unit_sub, abs_mul_unit_sub, mul_left_inj' hunit.ne'] at htie
      have hhalf : |(m : ℚ) - q / unit p| = 1 / 2 := le_antisymm hround.le (htie ▸ hround.half_le hkm)
      rw [even_significand_iff, Nat.even_add]
      exact iff_of_true (Nat.even_mul.2 (Or.inr ⟨Nat.pow 2 51, by decide⟩)) (hround.even hhalf)
    · exact absurd htie (hbelow other h).ne'

/-- Both ways of scaling a quotient by a power of two divide it by that power. -/
private theorem quotient_scaled (num den : Nat) (e : ℤ) :
    if 0 ≤ e then (num : ℚ) / (den * Nat.pow 2 e.toNat : Nat) = num / den / 2 ^ e
    else ((num * Nat.pow 2 (-e).toNat : Nat) : ℚ) / den = num / den / 2 ^ e := by
  split
  · rename_i h
    obtain ⟨n, rfl⟩ := Int.eq_ofNat_of_zero_le h
    simp [div_div]
  · rename_i h
    obtain ⟨n, hn⟩ := Int.eq_ofNat_of_zero_le (show 0 ≤ -e by omega)
    obtain rfl : e = -n := by omega
    simp [zpow_neg, mul_div_right_comm]

private theorem fits_iff (num : Nat) {den : Nat} (hden : 0 < den) (e : ℤ) :
    (if 0 ≤ e then den * Nat.pow 2 e.toNat ≤ num else den ≤ num * Nat.pow 2 (-e).toNat) ↔
      (2 : ℚ) ^ e ≤ num / den := by
  have hscaled := quotient_scaled num den e
  rw [← one_le_div (by positivity : (0 : ℚ) < 2 ^ e)]
  split
  · rename_i h
    rw [if_pos h] at hscaled
    rw [← hscaled, one_le_div (by exact_mod_cast Nat.mul_pos hden (Nat.pow_pos two_pos)), Nat.cast_le]
  · rename_i h
    rw [if_neg h] at hscaled
    rw [← hscaled, one_le_div (by exact_mod_cast hden), Nat.cast_le]

theorem binaryOrder_spec {num den : Nat} (hnum : 0 < num) (hden : 0 < den) :
    (2 : ℚ) ^ binaryOrder num den ≤ num / den ∧ (num / den : ℚ) < 2 ^ (binaryOrder num den + 1) := by
  have hpos : (0 : ℚ) < den := by exact_mod_cast hden
  have hnumlow : (2 : ℚ) ^ (num.log2 : ℤ) ≤ num := by exact_mod_cast Nat.log2_self_le hnum.ne'
  have hnumhigh : (num : ℚ) < 2 ^ ((num.log2 : ℤ) + 1) := by exact_mod_cast Nat.lt_log2_self (n := num)
  have hdenlow : (2 : ℚ) ^ (den.log2 : ℤ) ≤ den := by exact_mod_cast Nat.log2_self_le hden.ne'
  have hdenhigh : (den : ℚ) < 2 ^ ((den.log2 : ℤ) + 1) := by exact_mod_cast Nat.lt_log2_self (n := den)
  unfold binaryOrder
  simp only
  generalize hl : (num.log2 : ℤ) = l at *
  generalize hk : (den.log2 : ℤ) = k at *
  have hlow : (2 : ℚ) ^ (l - k - 1) < num / den := by
    rw [lt_div_iff₀ hpos]
    calc (2 : ℚ) ^ (l - k - 1) * den < 2 ^ (l - k - 1) * 2 ^ (k + 1) := by gcongr
      _ = 2 ^ l := by rw [← zpow_add₀ two_ne_zero]; congr 1; ring
      _ ≤ num := hnumlow
  have hhigh : (num / den : ℚ) < 2 ^ (l - k + 1) := by
    rw [div_lt_iff₀ hpos]
    calc (num : ℚ) < 2 ^ (l + 1) := hnumhigh
      _ = 2 ^ (l - k + 1) * 2 ^ k := by rw [← zpow_add₀ two_ne_zero]; congr 1; ring
      _ ≤ 2 ^ (l - k + 1) * den := by gcongr
  have hfits := fits_iff num hden (l - k)
  rcases le_or_gt ((2 : ℚ) ^ (l - k)) (num / den) with h | h
  · rw [if_pos (hfits.2 h)]
    exact ⟨h, hhigh⟩
  · rw [if_neg (mt hfits.1 h.not_ge), sub_add_cancel]
    exact ⟨hlow.le, h⟩

theorem isNearest_nearestRank (num : Nat) {den : Nat} (hden : 0 < den) :
    IsNearest (nearestRank num den) (num / den) := by
  rcases Nat.eq_zero_or_pos num with rfl | hnum
  · simpa [nearestRank, magnitude_zero] using IsNearest.magnitude_self 0
  · obtain ⟨hlow, hhigh⟩ := binaryOrder_spec hnum hden
    rw [nearestRank, if_neg hnum.ne']
    simp only
    generalize hq : max (-1074) (binaryOrder num den - 52) = q
    have hunit : unit (q + 1074).toNat = 2 ^ q := by
      rw [unit]
      congr 1
      omega
    refine isNearest_of_isRounded ?_ ?_ ?_
    · rw [hunit]
      have hscaled := quotient_scaled num den q
      split
      · rename_i h
        rw [if_pos h] at hscaled
        rw [← hscaled]
        exact isRounded_roundQuotient _ (Nat.mul_pos hden (Nat.pow_pos two_pos))
      · rename_i h
        rw [if_neg h] at hscaled
        rw [← hscaled]
        exact isRounded_roundQuotient _ hden
    · rw [hunit]
      calc (num / den : ℚ) < 2 ^ (binaryOrder num den + 1) := hhigh
        _ ≤ 2 ^ (53 + q) := zpow_le_zpow_right₀ one_le_two (by omega)
        _ = 2 * binade * 2 ^ q := by
          rw [zpow_add₀ two_ne_zero]
          norm_num [binade]
    · rcases le_or_gt (binaryOrder num den - 52) (-1074) with h | h
      · left
        omega
      · right
        rw [hunit]
        calc (binade * 2 ^ q : ℚ) = 2 ^ (52 + q) := by
              rw [zpow_add₀ two_ne_zero]
              norm_num [binade]
          _ = 2 ^ binaryOrder num den := by
              congr 1
              omega
          _ ≤ num / den := hlow

private theorem exists_quotient {q : ℚ} (hq : 0 ≤ q) : ∃ num den : Nat, 0 < den ∧ (num / den : ℚ) = q := by
  obtain ⟨num, hnum⟩ := Int.eq_ofNat_of_zero_le (Rat.num_nonneg.2 hq)
  refine ⟨num, q.den, q.den_pos, ?_⟩
  have hdiv := Rat.num_div_den q
  rwa [hnum, Int.cast_natCast] at hdiv

/-- Every number that is not negative has a nearest magnitude. -/
theorem exists_isNearest {q : ℚ} (hq : 0 ≤ q) : ∃ rank, IsNearest rank q := by
  obtain ⟨num, den, hden, rfl⟩ := exists_quotient hq
  exact ⟨_, isNearest_nearestRank num hden⟩

/-! ### The relative error -/

/-- Half the relative distance of neighbours at the beginning of a binade. -/
def roundoff : ℚ := 1 / (2 * binade)

theorem roundoff_pos : 0 < roundoff := by
  have : (0 : ℚ) < binade := by exact_mod_cast binade_pos
  rw [roundoff]
  positivity

/-- From the first full binade on, the relative error of rounding is at most the roundoff. -/
theorem IsNearest.abs_sub_le {r : Nat} {q : ℚ} (h : IsNearest r q) (hq : 2 ^ (-1022 : ℤ) ≤ q) :
    |magnitude r - q| ≤ roundoff * q := by
  have hpos : 0 < q := (zpow_pos two_pos _).trans_le hq
  obtain ⟨e, hlow, hhigh⟩ := exists_mem_Ico_zpow hpos one_lt_two
  have he : -1022 < e + 1 := (zpow_lt_zpow_iff_right₀ one_lt_two).1 (hq.trans_lt hhigh)
  obtain ⟨p, hp⟩ : ∃ p : Nat, (p : ℤ) = e + 1022 := ⟨(e + 1022).toNat, by omega⟩
  have hunit := unit_pos p
  have hbinade : (binade : ℚ) * unit p = 2 ^ e := by
    rw [show (binade : ℚ) = 2 ^ (52 : ℤ) by norm_num [binade], unit, ← zpow_add₀ two_ne_zero]
    congr 1
    omega
  -- the nearest multiple of the unit is a magnitude at most half a unit away
  obtain ⟨num, den, hden, hquotient⟩ := exists_quotient (div_nonneg hpos.le hunit.le)
  have hround := isRounded_roundQuotient num hden
  rw [hquotient] at hround
  have hm : binade ≤ roundQuotient num den := hround.le_of_ge ((le_div_iff₀ hunit).2 (hbinade.trans_le hlow))
  have hm' : roundQuotient num den ≤ 2 * binade := hround.le_of_le (by
    rw [div_le_iff₀ hunit]
    push_cast
    rw [mul_assoc, hbinade, mul_comm, ← zpow_add_one₀ two_ne_zero]
    exact hhigh.le)
  calc |magnitude r - q| ≤ |(roundQuotient num den : ℚ) * unit p - q| := by
        rw [← magnitude_of_le hm' (Or.inr hm)]
        exact h.le _
    _ = |roundQuotient num den - q / unit p| * unit p := abs_mul_unit_sub _ _ _
    _ ≤ 1 / 2 * unit p := mul_le_mul_of_nonneg_right hround.le hunit.le
    _ = roundoff * (binade * unit p) := by
        have : (binade : ℚ) ≠ 0 := by exact_mod_cast binade_pos.ne'
        rw [roundoff]
        field_simp
    _ ≤ roundoff * q := mul_le_mul_of_nonneg_left (hbinade.trans_le hlow) roundoff_pos.le

/-! ### Integers -/

theorem isNearest_nearestRank_one (n : Nat) : IsNearest (nearestRank n 1) n := by
  simpa using isNearest_nearestRank n one_pos

/-- Integers up to `2 ^ 53` and their multiples by powers of two are magnitudes. -/
theorem exists_magnitude_eq {n : Nat} (h : n ≤ 2 ^ 53) (e : Nat) : ∃ rank, magnitude rank = n * 2 ^ e := by
  rcases Nat.eq_zero_or_pos n with rfl | hn
  · exact ⟨0, by rw [magnitude_zero, Nat.cast_zero, zero_mul]⟩
  · obtain ⟨k, hk, hlow, hhigh⟩ : ∃ k ≤ 52, 2 ^ k ≤ n ∧ n ≤ 2 ^ (k + 1) := by
      rcases le_or_gt n.log2 52 with hlog | hlog
      · exact ⟨n.log2, hlog, Nat.log2_self_le hn.ne', Nat.lt_log2_self.le⟩
      · exact ⟨52, le_rfl, (Nat.pow_le_pow_right two_pos hlog.le).trans (Nat.log2_self_le hn.ne'), h⟩
    have hbinade : binade = 2 ^ k * 2 ^ (52 - k) := by
      rw [← Nat.pow_add, Nat.add_sub_cancel' hk]
      rfl
    refine ⟨(1022 + k + e) * binade + n * 2 ^ (52 - k), ?_⟩
    rw [magnitude_of_le ?_ (Or.inr ?_)]
    · have hunit : unit (1022 + k) * 2 ^ (52 - k) = 1 := by
        rw [unit, ← zpow_natCast, ← zpow_add₀ two_ne_zero]
        convert zpow_zero (2 : ℚ) using 2
        omega
      rw [unit_add]
      push_cast
      calc (n : ℚ) * 2 ^ (52 - k) * (2 ^ e * unit (1022 + k)) = n * 2 ^ e * (unit (1022 + k) * 2 ^ (52 - k)) := by ring
        _ = n * 2 ^ e := by rw [hunit, mul_one]
    · rw [hbinade, ← Nat.mul_assoc, ← pow_succ']
      exact Nat.mul_le_mul_right _ hhigh
    · rw [hbinade]
      exact Nat.mul_le_mul_right _ hlow

theorem magnitude_nearestRank_natCast {n : Nat} (h : n ≤ 2 ^ 53) : magnitude (nearestRank n 1) = n := by
  obtain ⟨rank, hrank⟩ := exists_magnitude_eq h 0
  rw [pow_zero, mul_one] at hrank
  have hnearest := isNearest_nearestRank_one n
  rw [← hrank] at hnearest ⊢
  rw [hnearest.eq_of_magnitude]

end LocatedYaml.Binary64
