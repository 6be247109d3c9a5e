import Mathlib.Algebra.Order.Field.Rat
import Mathlib.Algebra.Order.Field.Power
import Mathlib.Tactic.Linarith
import Mathlib.Tactic.Positivity
import Rulewright.Proofs.Decimal.ReadBack

/-!
# The nearest double is the nearest one

Doubles are the rationals with a significand of 53 bits. An integer of at least 53 bits lies between
two multiples of the weight `2 ^ p` of its last significant bit, and these are its neighbours among
the doubles: a double that is no multiple of `2 ^ p` has a smaller exponent and lies below all
numbers of this size.

* `divNearest_spec`: the nearest multiple, the even one of two.
* `le_of_exponent_lt`: doubles of smaller exponents.
* `nearestInt_isNearest`: no double is nearer, and of two the one with the even significand is
  taken.
-/

namespace Rulewright.Decimal

/-- The number is a finite double. -/
def IsBinary64 (q : ℚ) : Prop := ∃ m k : ℤ, |m| < 2 ^ 53 ∧ -1074 ≤ k ∧ k ≤ 971 ∧ q = m * 2 ^ k

/-- The double is the one that the integer is rounded to. -/
structure IsNearest (n d : ℤ) : Prop where
  isBinary64 : IsBinary64 d
  /-- No double is nearer. -/
  le : ∀ q, IsBinary64 q → |(n : ℚ) - d| ≤ |n - q|
  /-- If another one is as near, then all 53 bits of the significand are in use and the last one is
  zero. -/
  even : ∀ q, IsBinary64 q → q ≠ d → |(n : ℚ) - d| = |n - q| →
      ∃ m k : ℤ, 2 ^ 51 ≤ |m| ∧ |m| < 2 ^ 52 ∧ (d : ℚ) = 2 * m * 2 ^ k

theorem IsBinary64.neg {q : ℚ} (h : IsBinary64 q) : IsBinary64 (-q) := by
  obtain ⟨m, k, hm, hk, hk', rfl⟩ := h
  exact ⟨-m, k, by rwa [abs_neg], hk, hk', by push_cast; ring⟩

theorem IsNearest.neg {n d : ℤ} (h : IsNearest n d) : IsNearest (-n) (-d) := by
  have habs : ∀ x y : ℚ, |-x - y| = |x - -y| := fun x y => by rw [← abs_neg]; congr 1; ring
  refine ⟨by push_cast; exact h.isBinary64.neg, fun q hq => ?_, fun q hq hne heq => ?_⟩
  · push_cast
    rw [habs, habs, neg_neg]
    exact h.le _ hq.neg
  · push_cast at hne heq ⊢
    rw [habs, habs, neg_neg] at heq
    obtain ⟨m, k, h1, h2, h3⟩ := h.even _ hq.neg (fun hd => hne (by rw [← hd, neg_neg])) heq
    exact ⟨-m, k, by rwa [abs_neg], by rwa [abs_neg], by rw [h3]; push_cast; ring⟩

/-- The rounded quotient is off by at most a half, and even if it is off by a half. -/
theorem divNearest_spec {n u : ℕ} (hu : 0 < u) :
    2 * |(n : ℤ) - divNearest n u * u| ≤ u ∧
    (2 * |(n : ℤ) - divNearest n u * u| = u → divNearest n u % 2 = 0) := by
  have hmod : n % u < u := Nat.mod_lt n hu
  have hdiv : (n : ℤ) = (n / u : ℕ) * u + (n % u : ℕ) := by
    have := Nat.div_add_mod n u
    zify at this
    push_cast
    linarith
  unfold divNearest
  dsimp only
  split_ifs with hup
  · have habs : |(n : ℤ) - ((n / u + 1 : ℕ) : ℤ) * u| = u - (n % u : ℕ) := by
      rw [show (n : ℤ) - ((n / u + 1 : ℕ) : ℤ) * u =
          -((u : ℤ) - (n % u : ℕ)) by rw [hdiv]; push_cast; ring,
        abs_neg, abs_of_nonneg (by omega)]
    rw [habs]
    simp only [Bool.or_eq_true, decide_eq_true_eq, Bool.and_eq_true, beq_iff_eq] at hup
    omega
  · have habs : |(n : ℤ) - ((n / u : ℕ) : ℤ) * u| = (n % u : ℕ) := by
      rw [show (n : ℤ) - ((n / u : ℕ) : ℤ) * u = (n % u : ℕ) by rw [hdiv]; push_cast; ring,
        abs_of_nonneg (by omega)]
    rw [habs]
    simp only [Bool.or_eq_true, decide_eq_true_eq, Bool.and_eq_true, beq_iff_eq] at hup
    omega

/-- No other multiple is nearer, and one that is as near is odd. -/
theorem divNearest_le {n u : ℕ} (hu : 0 < u) (j : ℤ) :
    |(n : ℤ) - divNearest n u * u| ≤ |n - j * u| ∧
    (j ≠ divNearest n u → |(n : ℤ) - divNearest n u * u| = |n - j * u| →
      divNearest n u % 2 = 0) := by
  obtain ⟨hhalf, heven⟩ := divNearest_spec (n := n) hu
  by_cases hj : j = divNearest n u
  · rw [hj]
    exact ⟨le_rfl, fun hne => absurd rfl hne⟩
  · have hfar : (u : ℤ) ≤ |(j - divNearest n u) * u| := by
      rw [abs_mul, abs_of_nonneg (Int.natCast_nonneg u)]
      exact le_mul_of_one_le_left (Int.natCast_nonneg u) (Int.one_le_abs (sub_ne_zero.2 hj))
    have htriangle : |(j - divNearest n u) * (u : ℤ)| ≤ |(n : ℤ) - divNearest n u * u| + |n -
        j * u| := by
      rw [show (j - divNearest n u) * (u : ℤ) = (n - divNearest n u * u) - (n - j * u) by ring]
      exact abs_sub _ _
    exact ⟨by omega, fun _ heq => heven (by omega)⟩

/-- Doubles of smaller exponents are smaller. -/
theorem le_of_exponent_lt {m k : ℤ} {p : ℕ} (hm : |m| < 2 ^ 53) (hk : k < p) :
    2 * ((m : ℚ) * 2 ^ k) ≤ (2 ^ 53 - 1) * 2 ^ p := by
  have hm' : (m : ℚ) ≤ 2 ^ 53 - 1 := by
    have := (abs_lt.1 hm).2
    exact_mod_cast Int.le_sub_one_of_lt this
  have hscale : (2 : ℚ) * 2 ^ k ≤ 2 ^ p := by
    rw [← zpow_one_add₀ two_ne_zero, ← zpow_natCast]
    exact zpow_le_zpow_right₀ one_le_two (by omega)
  calc 2 * ((m : ℚ) * 2 ^ k) = m * (2 * 2 ^ k) := by ring
    _ ≤ (2 ^ 53 - 1) * (2 * 2 ^ k) := mul_le_mul_of_nonneg_right hm' (by positivity)
    _ ≤ (2 ^ 53 - 1) * 2 ^ p := mul_le_mul_of_nonneg_left hscale (by norm_num)

/-- A double is a multiple of a power of two or lies below the numbers with this last significant
bit. -/
theorem IsBinary64.cases {q : ℚ} (h : IsBinary64 q) (p : ℕ) :
    (∃ j : ℤ, q = (j * 2 ^ p : ℤ)) ∨ 2 * q ≤ (2 ^ 53 - 1) * 2 ^ p := by
  obtain ⟨m, k, hm, -, -, rfl⟩ := h
  by_cases hk : k < p
  · exact .inr (le_of_exponent_lt hm hk)
  · obtain ⟨i, rfl⟩ : ∃ i : ℕ, k = p + i := ⟨(k - p).toNat, by omega⟩
    refine .inl ⟨m * 2 ^ i, ?_⟩
    push_cast
    rw [zpow_add₀ two_ne_zero, zpow_natCast, zpow_natCast]
    ring

section Large

variable {n p : ℕ} (h1 : 2 ^ 52 * 2 ^ p ≤ n) (h2 : n < 2 ^ 53 * 2 ^ p)
include h1 h2

theorem divNearest_range : 2 ^ 52 ≤ divNearest n (2 ^ p) ∧ divNearest n (2 ^ p) ≤ 2 ^ 53 := by
  have hpos : 0 < 2 ^ p := Nat.two_pow_pos p
  have hlow : 2 ^ 52 ≤ n / 2 ^ p := (Nat.le_div_iff_mul_le hpos).2 h1
  have hhigh : n / 2 ^ p < 2 ^ 53 := (Nat.div_lt_iff_lt_mul hpos).2 h2
  obtain ⟨hb1, hb2⟩ := divNearest_bounds n (2 ^ p)
  omega

/-- Among all doubles, the nearest multiple of the last significant bit is the nearest. -/
theorem nearest_le {q : ℚ} (hq : IsBinary64 q) :
    |((n : ℤ) : ℚ) - (nearest n : ℤ)| ≤ |(n : ℤ) - q| ∧
    (q ≠ (nearest n : ℤ) → |((n : ℤ) : ℚ) - (nearest n : ℤ)| = |(n : ℤ) - q| →
      divNearest n (2 ^ p) % 2 = 0) := by
  have hpos : 0 < 2 ^ p := Nat.two_pow_pos p
  have hd : ((nearest n : ℕ) : ℤ) = divNearest n (2 ^ p) * (2 ^ p : ℕ) := by
    rw [nearest, ulp_eq h1 h2]
    push_cast
    rfl
  rcases hq.cases p with ⟨j, rfl⟩ | hlow
  · obtain ⟨hle, heven⟩ := divNearest_le (n := n) hpos j
    rw [hd]
    push_cast at hle heven ⊢
    refine ⟨by exact_mod_cast hle, fun hne heq => heven (fun hj => hne ?_) (by exact_mod_cast heq)⟩
    rw [hj]
    push_cast
    rfl
  · -- the number is farther from such a double than from the smallest one of its size
    obtain ⟨hself, -⟩ := divNearest_le (n := n) hpos (2 ^ 52)
    have hself' : |((n : ℤ) : ℚ) - (nearest n : ℤ)| ≤ n - 2 ^ 52 * 2 ^ p := by
      have hle : |(n : ℤ) - (nearest n : ℤ)| ≤ n - 2 ^ 52 * 2 ^ p := by
        rw [hd]
        refine hself.trans (le_of_eq ?_)
        push_cast
        exact abs_of_nonneg (sub_nonneg.2 (by exact_mod_cast h1))
      exact_mod_cast hle
    have hpos' : (0 : ℚ) < 2 ^ p := by positivity
    have hfar : |((n : ℤ) : ℚ) - (nearest n : ℤ)| < |(n : ℤ) - q| := by
      refine lt_of_lt_of_le ?_ (le_abs_self _)
      push_cast at hself' ⊢
      linarith
    exact ⟨hfar.le, fun _ heq => absurd heq hfar.ne⟩

end Large

/-- Rounding up to the next power of two changes the exponent. -/
theorem exists_normal {k : ℕ} (hlow : 2 ^ 52 ≤ k) (hhigh : k ≤ 2 ^ 53) (p : ℕ) :
    ∃ m e : ℕ, k * 2 ^ p = m * 2 ^ e ∧ 2 ^ 52 ≤ m ∧ m < 2 ^ 53 ∧ e ≤ p + 1 ∧
      (k % 2 = 0 → m % 2 = 0) := by
  by_cases htop : k = 2 ^ 53
  · exact ⟨2 ^ 52, p + 1, by rw [htop]; ring, le_rfl, by decide, le_rfl, fun _ => by decide⟩
  · exact ⟨k, p, rfl, hlow, by omega, by omega, id⟩

theorem nearest_isNearest {n : ℕ} (hn : n < 2 ^ 64) : IsNearest n (nearest n) := by
  by_cases hsmall : n < 2 ^ 53
  · -- the integer is a double itself
    rw [nearest_of_lt hsmall]
    refine ⟨⟨n, 0, by rw [Nat.abs_cast]; exact_mod_cast hsmall, by omega, by omega, by simp⟩,
      fun q _ => by simp, fun q _ hne heq => ?_⟩
    rw [sub_self, abs_zero, eq_comm, abs_eq_zero, sub_eq_zero] at heq
    exact absurd heq.symm hne
  · obtain ⟨p, h1, h2⟩ := exists_scale (n := n) (by omega)
    have hp : p ≤ 12 := by
      by_contra hp
      have : 2 ^ 13 ≤ 2 ^ p := Nat.pow_le_pow_right (by decide) (by omega)
      omega
    obtain ⟨hlow, hhigh⟩ := divNearest_range h1 h2
    -- the rounded quotient may reach the next power of two, which has a shorter significand
    obtain ⟨m, e, hd, hm1, hm2, he, heven⟩ := exists_normal hlow hhigh p
    rw [← ulp_eq h1 h2] at hd
    change nearest n = m * 2 ^ e at hd
    refine ⟨⟨m, e, ?_, by omega, by omega, ?_⟩, fun q hq => (nearest_le h1 h2 hq).1,
      fun q hq hne heq => ?_⟩
    · rw [Nat.abs_cast]
      exact_mod_cast hm2
    · rw [hd, zpow_natCast]
      push_cast
      rfl
    · have hmod := heven ((nearest_le h1 h2 hq).2 hne heq)
      obtain ⟨i, rfl⟩ : ∃ i, m = 2 * i := ⟨m / 2, by omega⟩
      refine ⟨i, e, ?_, ?_, ?_⟩
      · rw [Nat.abs_cast]
        exact_mod_cast (by omega : 2 ^ 51 ≤ i)
      · rw [Nat.abs_cast]
        exact_mod_cast (by omega : i < 2 ^ 52)
      · rw [hd, zpow_natCast]
        push_cast
        rfl

/-- **The nearest double.** An integer of 64 bits is rounded to the double that is nearest to it. -/
theorem nearestInt_isNearest {n : ℤ} (hn : |n| < 2 ^ 64) : IsNearest n (nearestInt n) := by
  cases n with
  | ofNat n =>
    refine nearest_isNearest ?_
    rw [Int.ofNat_eq_natCast, Nat.abs_cast] at hn
    exact_mod_cast hn
  | negSucc n =>
    have hn' : n + 1 < 2 ^ 64 := by
      rw [Int.negSucc_eq, abs_neg, abs_of_nonneg (by omega)] at hn
      exact_mod_cast hn
    exact (nearest_isNearest hn').neg

end Rulewright.Decimal
