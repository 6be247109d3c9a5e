import Mathlib.Data.List.Basic
import Mathlib.Data.List.TakeWhile
import Mathlib.Tactic.Ring
import Rulewright.Expr.Literal

/-!
# Doubles read back from their texts

The numbers that read back as a double are nearer to it than to any other one, and an even
significand keeps the middle to itself. So no number reads back as two doubles, and the shortest
text of a double belongs to it alone.

* `isDouble_nearest`: rounding gives doubles.
* `eq_of_readsBack`: a number reads back as one double.
* `intText_inj`: two doubles have two texts.
-/

namespace Rulewright.Decimal

variable {v n : Nat}

/-- The number is a double: a multiple of the weight of its last significant bit. -/
def IsDouble (v : Nat) : Prop := ulp v ∣ v

theorem ulp_eq {p : Nat} (h1 : 2 ^ 52 * 2 ^ p ≤ v) (h2 : v < 2 ^ 53 * 2 ^ p) : ulp v = 2 ^ p := by
  rw [← Nat.pow_add] at h1 h2
  have hv : v ≠ 0 := by
    have : 0 < 2 ^ (52 + p) := Nat.two_pow_pos _
    omega
  have hlog : v.log2 = 52 + p :=
    (Nat.log2_eq_iff hv).2 ⟨h1, by rwa [show 52 + p + 1 = 53 + p by omega]⟩
  unfold ulp significandBits
  rw [hlog, show 52 + p + 1 - 53 = p by omega]
  rfl

/-- Size and significand of a number with 53 bits or more. -/
theorem exists_scale (h : 2 ^ 52 ≤ n) : ∃ p, 2 ^ 52 * 2 ^ p ≤ n ∧ n < 2 ^ 53 * 2 ^ p := by
  have hn : n ≠ 0 := by
    have : 0 < 2 ^ 52 := Nat.two_pow_pos _
    omega
  have hlog : 52 ≤ n.log2 := (Nat.le_log2 hn).2 h
  refine ⟨n.log2 - 52, ?_, ?_⟩
  · rw [← Nat.pow_add, show 52 + (n.log2 - 52) = n.log2 by omega]
    exact Nat.log2_self_le hn
  · rw [← Nat.pow_add, show 53 + (n.log2 - 52) = n.log2 + 1 by omega]
    exact Nat.lt_log2_self

theorem divNearest_bounds (n d : Nat) : n / d ≤ divNearest n d ∧ divNearest n d ≤ n / d + 1 := by
  unfold divNearest
  dsimp only
  split_ifs <;> omega

/-- **Rounding gives doubles.** -/
theorem isDouble_nearest (n : Nat) : IsDouble (nearest n) := by
  unfold IsDouble
  by_cases hn : n < 2 ^ 53
  · rw [nearest_of_lt hn, ulp_of_lt hn]
    exact one_dvd n
  · obtain ⟨p, h1, h2⟩ := exists_scale (n := n) (by omega)
    have hpos : 0 < 2 ^ p := Nat.two_pow_pos p
    have hlow : 2 ^ 52 ≤ n / 2 ^ p := (Nat.le_div_iff_mul_le hpos).2 h1
    have hhigh : n / 2 ^ p < 2 ^ 53 := (Nat.div_lt_iff_lt_mul hpos).2 h2
    obtain ⟨hb1, hb2⟩ := divNearest_bounds n (2 ^ p)
    rw [nearest, ulp_eq h1 h2]
    generalize divNearest n (2 ^ p) = k at hb1 hb2
    -- only rounding up to the next power of two changes the size
    by_cases hk : k = 2 ^ 53
    · have hv : k * 2 ^ p = 2 ^ 52 * 2 ^ (p + 1) := by rw [hk]; ring
      rw [hv, ulp_eq le_rfl (Nat.mul_lt_mul_of_pos_right (by omega) (Nat.two_pow_pos _))]
      exact dvd_mul_left _ _
    · rw [ulp_eq (Nat.mul_le_mul_right _ (by omega)) (Nat.mul_lt_mul_of_pos_right (by omega) hpos)]
      exact dvd_mul_left _ _

theorem IsDouble.exists_significand (h : IsDouble v) (hv : 2 ^ 52 ≤ v) :
    ∃ p a, v = a * 2 ^ p ∧ 2 ^ 52 ≤ a ∧ a < 2 ^ 53 := by
  obtain ⟨p, h1, h2⟩ := exists_scale hv
  obtain ⟨a, ha⟩ := h
  rw [ulp_eq h1 h2] at ha
  have hpos : 0 < 2 ^ p := Nat.two_pow_pos p
  rw [ha, Nat.mul_comm (2 ^ p)] at h1 h2
  exact ⟨p, a, by rw [ha, Nat.mul_comm], Nat.le_of_mul_le_mul_right h1 hpos,
    Nat.lt_of_mul_lt_mul_right h2⟩

/-! ### What reads back -/

/-- The distance to the double below is halved below a power of two. -/
def gapBelow (a : Nat) : Nat := if a = 2 ^ 52 then 1 else 2

theorem readsBack_iff {a p x : Nat} (h1 : 2 ^ 52 ≤ a) (h2 : a < 2 ^ 53) :
    readsBack (a * 2 ^ p) x = true ↔
      if a % 2 = 0 then 4 * a * 2 ^ p ≤ 4 * x + gapBelow a * 2 ^ p ∧ 4 * x ≤ (4 * a + 2) * 2 ^ p
      else 4 * a * 2 ^ p < 4 * x + gapBelow a * 2 ^ p ∧ 4 * x < (4 * a + 2) * 2 ^ p := by
  have hpos : 0 < 2 ^ p := Nat.two_pow_pos p
  have hlow : 2 ^ 52 * 2 ^ p ≤ a * 2 ^ p := Nat.mul_le_mul_right _ h1
  have hhigh : a * 2 ^ p < 2 ^ 53 * 2 ^ p := Nat.mul_lt_mul_of_pos_right h2 hpos
  have hulp := ulp_eq hlow hhigh
  have hlog : (a * 2 ^ p).log2 = 52 + p := by
    refine (Nat.log2_eq_iff (by omega)).2 ⟨by rwa [Nat.pow_add], ?_⟩
    rwa [show 52 + p + 1 = 53 + p by omega, Nat.pow_add]
  have hgap : (if a * 2 ^ p = Nat.pow 2 (a * 2 ^ p).log2 then 2 ^ p else 2 * 2 ^ p) =
      gapBelow a * 2 ^ p := by
    have hiff : a * 2 ^ p = 2 ^ (52 + p) ↔ a = 2 ^ 52 := by
      rw [Nat.pow_add]
      exact Nat.mul_left_inj (by omega)
    have hpow : Nat.pow 2 (52 + p) = 2 ^ (52 + p) := rfl
    simp only [hlog, hpow, hiff, gapBelow]
    split_ifs <;> simp
  have hle : gapBelow a * 2 ^ p ≤ 4 * (a * 2 ^ p) := by
    have : gapBelow a ≤ 2 := by unfold gapBelow; split_ifs <;> omega
    have := Nat.mul_le_mul_right (2 ^ p) this
    omega
  have hassoc : 4 * a * 2 ^ p = 4 * (a * 2 ^ p) := Nat.mul_assoc ..
  have hsum : (4 * a + 2) * 2 ^ p = 4 * (a * 2 ^ p) + 2 * 2 ^ p := by ring
  unfold readsBack
  simp only [hulp, beq_iff_eq, hgap, Nat.mul_div_cancel _ hpos, hassoc, hsum]
  split_ifs <;> simp only [Bool.and_eq_true, decide_eq_true_eq] <;> omega

/-- The upper end of a double's interval does not reach past the lower end of a later one's. -/
theorem not_readsBack_both {a c p q x : Nat} (ha1 : 2 ^ 52 ≤ a) (ha2 : a < 2 ^ 53)
    (hc1 : 2 ^ 52 ≤ c) (hc2 : c < 2 ^ 53) (hlt : a * 2 ^ p < c * 2 ^ q)
    (hv : readsBack (a * 2 ^ p) x = true) : readsBack (c * 2 ^ q) x = false := by
  by_contra hw
  rw [Bool.not_eq_false] at hw
  rw [readsBack_iff ha1 ha2] at hv
  rw [readsBack_iff hc1 hc2] at hw
  have hpos : 0 < 2 ^ p := Nat.two_pow_pos p
  rcases Nat.lt_trichotomy p q with hpq | rfl | hpq
  · -- a larger size: the interval of the later double starts at the power of two or above it
    obtain ⟨r, rfl⟩ : ∃ r, q = p + 1 + r := ⟨q - p - 1, by omega⟩
    have hR : 2 ^ (p + 1 + r) = 2 * 2 ^ r * 2 ^ p := by rw [Nat.pow_add, Nat.pow_add]; ring
    have hr : 1 ≤ 2 ^ r := Nat.one_le_two_pow
    have hgap : 4 * 2 ^ 52 - 1 ≤ 4 * c - gapBelow c := by unfold gapBelow; split_ifs <;> omega
    have hscale : (4 * 2 ^ 52 - 1) * 2 ≤ (4 * c - gapBelow c) * (2 * 2 ^ r) :=
      Nat.mul_le_mul hgap (by omega)
    have hstart : (4 * c - gapBelow c) * (2 * 2 ^ r) * 2 ^ p =
        4 * c * 2 ^ (p + 1 + r) - gapBelow c * 2 ^ (p + 1 + r) := by
      rw [hR, Nat.mul_assoc, Nat.sub_mul]
    have hbound : (4 * 2 ^ 52 - 1) * 2 * 2 ^ p ≤ 4 * x := by
      have := Nat.mul_le_mul_right (2 ^ p) hscale
      split_ifs at hw <;> omega
    -- the last double of its size is odd, so it leaves the middle out
    have hend : (4 * 2 ^ 52 - 1) * 2 ≤ 4 * a + 2 := by
      refine Nat.le_of_mul_le_mul_right ?_ hpos
      split_ifs at hv <;> omega
    have hodd : a % 2 ≠ 0 := by omega
    rw [if_neg hodd] at hv
    have : (4 * 2 ^ 52 - 1) * 2 < 4 * a + 2 :=
      Nat.lt_of_mul_lt_mul_right (Nat.lt_of_le_of_lt hbound hv.2)
    omega
  · -- one size: the significands are neighbours, and one of them is odd
    have hac : a < c := Nat.lt_of_mul_lt_mul_right hlt
    have hgap : gapBelow c = 2 := if_neg (by omega)
    rw [hgap] at hw
    have hsub : ∀ k, (4 * c) * 2 ^ p ≤ 4 * x + 2 * 2 ^ p → 4 * x ≤ k * 2 ^ p → 4 * c ≤ k + 2 := by
      intro k h1 h2
      refine Nat.le_of_mul_le_mul_right ?_ hpos
      rw [Nat.add_mul]
      omega
    have hcases : 4 * c ≤ 4 * a + 2 + 2 :=
      hsub _ (by split_ifs at hw <;> omega) (by split_ifs at hv <;> omega)
    obtain rfl : c = a + 1 := by omega
    have hmid : 4 * (a + 1) * 2 ^ p = (4 * a + 2) * 2 ^ p + 2 * 2 ^ p := by ring
    by_cases hodd : a % 2 = 0
    · rw [if_neg (by omega)] at hw
      rw [if_pos hodd] at hv
      omega
    · rw [if_neg hodd] at hv
      rw [if_pos (by omega)] at hw
      omega
  · -- a smaller size cannot come later
    have h1 : 2 ^ 53 * 2 ^ q ≤ 2 ^ 52 * 2 ^ p := by
      rw [← Nat.pow_add, ← Nat.pow_add]
      exact Nat.pow_le_pow_right (by omega) (by omega)
    have h2 : 2 ^ 52 * 2 ^ p ≤ a * 2 ^ p := Nat.mul_le_mul_right _ ha1
    have h3 : c * 2 ^ q < 2 ^ 53 * 2 ^ q := Nat.mul_lt_mul_of_pos_right hc2 (Nat.two_pow_pos q)
    omega

/-- **A number reads back as one double.** -/
theorem eq_of_readsBack {w x : Nat} (hv : IsDouble v) (hw : IsDouble w) (hv' : 2 ^ 52 ≤ v)
    (hw' : 2 ^ 52 ≤ w) (h1 : readsBack v x = true) (h2 : readsBack w x = true) : v = w := by
  obtain ⟨p, a, rfl, ha1, ha2⟩ := hv.exists_significand hv'
  obtain ⟨q, c, rfl, hc1, hc2⟩ := hw.exists_significand hw'
  rcases Nat.lt_trichotomy (a * 2 ^ p) (c * 2 ^ q) with hlt | heq | hlt
  · rw [not_readsBack_both ha1 ha2 hc1 hc2 hlt h1] at h2
    cases h2
  · exact heq
  · rw [not_readsBack_both hc1 hc2 ha1 ha2 hlt h2] at h1
    cases h1

theorem readsBack_self (hv : IsDouble v) (hv' : 2 ^ 52 ≤ v) : readsBack v v = true := by
  obtain ⟨p, a, rfl, ha1, ha2⟩ := hv.exists_significand hv'
  have hpos : 0 < 2 ^ p := Nat.two_pow_pos p
  have hgap : 2 ^ p ≤ gapBelow a * 2 ^ p :=
    Nat.le_mul_of_pos_left _ (by unfold gapBelow; split_ifs <;> omega)
  have h4 : 4 * a * 2 ^ p = 4 * (a * 2 ^ p) := Nat.mul_assoc ..
  have h42 : (4 * a + 2) * 2 ^ p = 4 * (a * 2 ^ p) + 2 * 2 ^ p := by ring
  rw [readsBack_iff ha1 ha2]
  split_ifs <;> omega

theorem readsBack_of_onGrid? {unit x : Nat} (h : onGrid? v unit = some x) :
    readsBack v x = true := by
  unfold onGrid? at h
  dsimp only at h
  split at h
  · rename_i h1 h2
    split_ifs at h <;> cases h <;> assumption
  · cases h
    assumption
  · cases h
    assumption
  · cases h

theorem readsBack_shortest (hv : IsDouble v) (hv' : 2 ^ 52 ≤ v) :
    readsBack v (shortest v) = true := by
  unfold shortest
  dsimp only
  cases h : (List.range (Nat.toDigits 10 v).length).reverse.findSome? fun k =>
      onGrid? v (Nat.pow 10 k) with
  | none => exact readsBack_self hv hv'
  | some x =>
    obtain ⟨k, -, hk⟩ := List.exists_of_findSome?_eq_some h
    exact readsBack_of_onGrid? hk

theorem shortest_pos (hv : IsDouble v) (hv' : 2 ^ 52 ≤ v) : 0 < shortest v := by
  by_contra h0
  have hread := readsBack_shortest hv hv'
  rw [Nat.eq_zero_of_not_pos h0] at hread
  obtain ⟨p, a, rfl, ha1, ha2⟩ := hv.exists_significand hv'
  rw [readsBack_iff ha1 ha2] at hread
  have hle : 4 * a ≤ gapBelow a := by
    refine Nat.le_of_mul_le_mul_right ?_ (Nat.two_pow_pos p)
    split_ifs at hread <;> omega
  unfold gapBelow at hle
  split_ifs at hle <;> omega

/-! ### Digits -/

theorem digitChar_inj {m : Nat} (hm : m < 16) (hn : n < 16) (h : m.digitChar = n.digitChar) :
    m = n := by
  have hall : ∀ i < 16, ∀ j < 16, i.digitChar = j.digitChar → i = j := by decide
  exact hall m hm n hn h

/-- Digits belong to one number. -/
theorem toDigits_inj {b m : Nat} (hb : 1 < b) (hb' : b ≤ 16)
    (h : Nat.toDigits b m = Nat.toDigits b n) : m = n := by
  induction m using Nat.strong_induction_on generalizing n with
  | _ m ih =>
    have hlast : m % b = n % b ∧ (m < b ↔ n < b) ∧
        (b ≤ m → Nat.toDigits b (m / b) = Nat.toDigits b (n / b)) := by
      have hmod : ∀ k, k % b < 16 := fun k => Nat.lt_of_lt_of_le (Nat.mod_lt k (by omega)) hb'
      rw [Nat.toDigits_eq_if hb, @Nat.toDigits_eq_if b n hb] at h
      split_ifs at h with hm hn hn
      · rw [Nat.mod_eq_of_lt hm, Nat.mod_eq_of_lt hn]
        exact ⟨digitChar_inj (by omega) (by omega) (by simpa using h), by tauto, by omega⟩
      · have := congrArg List.length h
        simp at this
      · have := congrArg List.length h
        simp at this
      · obtain ⟨h1, h2⟩ := List.append_inj' h rfl
        exact ⟨digitChar_inj (hmod m) (hmod n) (by simpa using h2), by tauto, fun _ => h1⟩
    obtain ⟨hmod, hlt, hrest⟩ := hlast
    by_cases hm : m < b
    · rw [← Nat.mod_eq_of_lt hm, ← Nat.mod_eq_of_lt (hlt.1 hm), hmod]
    · have hdiv := ih (m / b) (Nat.div_lt_self (by omega) hb) (hrest (by omega))
      rw [← Nat.div_add_mod m b, ← Nat.div_add_mod n b, hmod, hdiv]

theorem toList_toString (n : Nat) : (toString n).toList = Nat.toDigits 10 n := by
  rw [Nat.toString_eq_ofList_toDigits, String.toList_ofList]

theorem isDigit_toDigits {c : Char} (h : c ∈ Nat.toDigits 10 n) : c.isDigit = true :=
  Nat.isDigit_of_mem_toDigits (by decide) le_rfl h

theorem isAlphanum_toDigits {c : Char} (h : c ∈ Nat.toDigits 16 n) : c.isAlphanum = true := by
  have hdigit : ∀ i < 16, i.digitChar.isAlphanum = true := by decide
  induction n using Nat.strong_induction_on with
  | _ n ih =>
    rw [Nat.toDigits_eq_if (by decide)] at h
    split_ifs at h with hn
    · rw [List.mem_singleton.1 h]
      exact hdigit n hn
    · rcases List.mem_append.1 h with h | h
      · exact ih (n / 16) (by omega) h
      · rw [List.mem_singleton.1 h]
        exact hdigit _ (Nat.mod_lt n (by decide))

theorem notMem_toDigits {c : Char} (hc : c.isDigit = false) (n : Nat) : c ∉ Nat.toDigits 10 n := by
  intro h
  rw [isDigit_toDigits h] at hc
  cases hc

theorem exists_trimZeros (digits : List Char) :
    ∃ k, digits = trimZeros digits ++ List.replicate k '0' := by
  refine ⟨(digits.reverse.takeWhile (· == '0')).length, ?_⟩
  have hzeros : digits.reverse.takeWhile (· == '0') =
      List.replicate (digits.reverse.takeWhile (· == '0')).length '0' :=
    List.eq_replicate_iff.2 ⟨rfl, fun c hc => by simpa using List.mem_takeWhile_imp hc⟩
  unfold trimZeros
  rw [← List.reverse_replicate, ← hzeros, ← List.reverse_append, List.takeWhile_append_dropWhile,
    List.reverse_reverse]

theorem mem_of_mem_trimZeros {c : Char} {digits : List Char} (h : c ∈ trimZeros digits) :
    c ∈ digits := by
  obtain ⟨k, hk⟩ := exists_trimZeros digits
  rw [hk]
  exact List.mem_append_left _ h

theorem trimZeros_toDigits_ne_nil (hn : 0 < n) : trimZeros (Nat.toDigits 10 n) ≠ [] := by
  intro h
  obtain ⟨k, hk⟩ := exists_trimZeros (Nat.toDigits 10 n)
  have hvalue : Nat.ofDigitChars 10 (Nat.toDigits 10 n) 0 = n := Nat.ofDigitChars_ten_toDigits
  rw [hk, h, List.nil_append, Nat.ofDigitChars_replicate_zero] at hvalue
  omega

/-- A point after the first digit, where more follow. -/
def pointed : List Char → List Char
  | [] => ['0']
  | [d] => [d]
  | d :: ds => d :: '.' :: ds

theorem toList_scientific (n : Nat) :
    (scientific n).toList = pointed (trimZeros (Nat.toDigits 10 n)) ++ 'e' ::
      Nat.toDigits 10 ((Nat.toDigits 10 n).length - 1) := by
  unfold scientific
  dsimp only
  split <;> simp_all [pointed]

theorem pointed_inj {xs ys : List Char} (hx : xs ≠ []) (hy : ys ≠ [])
    (h : pointed xs = pointed ys) : xs = ys := by
  match xs, ys, hx, hy with
  | [x], [y], _, _ => simpa [pointed] using h
  | [x], y :: y' :: ys, _, _ => simp [pointed] at h
  | x :: x' :: xs, [y], _, _ => simp [pointed] at h
  | x :: x' :: xs, y :: y' :: ys, _, _ => simpa [pointed] using h

theorem notMem_pointed (n : Nat) : 'e' ∉ pointed (trimZeros (Nat.toDigits 10 n)) := by
  have hdigits : 'e' ∉ trimZeros (Nat.toDigits 10 n) := fun h =>
    notMem_toDigits (by decide) n (mem_of_mem_trimZeros h)
  generalize trimZeros (Nat.toDigits 10 n) = ds at hdigits
  match ds with
  | [] => simp [pointed]
  | [d] => simpa [pointed] using hdigits
  | d :: d' :: ds => simpa [pointed] using hdigits

/-- The digits of the text and its exponent give all digits. -/
theorem scientific_inj {m : Nat} (hm : 0 < m) (hn : 0 < n) (h : scientific m = scientific n) :
    m = n := by
  have hlist := congrArg String.toList h
  rw [toList_scientific, toList_scientific] at hlist
  obtain ⟨hpoint, -, hexp⟩ :=
    (List.append_cons_inj_of_notMem (notMem_pointed m) (notMem_toDigits (by decide) _)).1 hlist
  have htrim := pointed_inj (trimZeros_toDigits_ne_nil hm) (trimZeros_toDigits_ne_nil hn) hpoint
  have hlen := toDigits_inj (by decide) (by decide) hexp
  have hm' : 0 < (Nat.toDigits 10 m).length := Nat.length_toDigits_pos
  have hn' : 0 < (Nat.toDigits 10 n).length := Nat.length_toDigits_pos
  obtain ⟨j, hj⟩ := exists_trimZeros (Nat.toDigits 10 m)
  obtain ⟨k, hk⟩ := exists_trimZeros (Nat.toDigits 10 n)
  have hj' := congrArg List.length hj
  have hk' := congrArg List.length hk
  rw [List.length_append, List.length_replicate] at hj' hk'
  obtain rfl : j = k := by
    rw [htrim] at hj'
    omega
  have hdigits : Nat.toDigits 10 m = Nat.toDigits 10 n := by rw [hj, hk, htrim]
  exact toDigits_inj (by decide) (by decide) hdigits

/-! ### Texts -/

/-- The text of a double starts with digits, and then comes a point or an exponent. -/
theorem toList_natText (v : Nat) :
    ∃ ds c rest, (natText v).toList = ds ++ c :: rest ∧ ds ≠ [] ∧ (∀ d ∈ ds, d.isDigit = true) ∧
      (c = '.' ∨ c = 'e') ∧ ∀ d ∈ rest, d.isDigit = true ∨ d = 'e' := by
  have hdigit : ∀ n : Nat, ∀ d ∈ Nat.toDigits 10 n, d.isDigit = true ∨ d = 'e' := fun n d hd =>
    Or.inl (isDigit_toDigits hd)
  unfold natText
  split_ifs with h
  · refine ⟨Nat.toDigits 10 v, '.', ['0'], ?_, Nat.toDigits_ne_nil, fun _ => isDigit_toDigits,
      Or.inl rfl, List.forall_mem_singleton.2 (Or.inl rfl)⟩
    rw [String.toList_append, Nat.toString_eq_ofList_toDigits, String.toList_ofList]
    rfl
  · generalize shortest v = n
    have hdigits : ∀ d ∈ trimZeros (Nat.toDigits 10 n), d.isDigit = true := fun d hd =>
      isDigit_toDigits (mem_of_mem_trimZeros hd)
    rw [toList_scientific]
    generalize trimZeros (Nat.toDigits 10 n) = ds at hdigits
    match ds with
    | [] =>
      exact ⟨['0'], 'e', _, rfl, by simp, List.forall_mem_singleton.2 rfl, Or.inr rfl, hdigit _⟩
    | [d] => exact ⟨[d], 'e', _, rfl, by simp, hdigits, Or.inr rfl, hdigit _⟩
    | d :: d' :: ds =>
      refine ⟨[d], '.', _, rfl, by simp, fun x hx => hdigits x (by simp_all), Or.inl rfl,
        fun x hx => ?_⟩
      rcases List.mem_append.1 hx with hx | hx
      · exact Or.inl (hdigits x (List.mem_cons_of_mem d hx))
      · exact (List.mem_cons.1 hx).elim Or.inr (hdigit _ x)

/-- A character that is in the text of a double. -/
def isTextual (c : Char) : Bool := c.isDigit || c == '.' || c == 'e' || c == '-'

theorem isTextual_intText {z : Int} {c : Char} (h : c ∈ (intText z).toList) :
    isTextual c = true := by
  have hnat : ∀ v, c ∈ (natText v).toList → isTextual c = true := by
    intro v hc
    obtain ⟨ds, d, rest, hlist, -, hds, hd, hrest⟩ := toList_natText v
    rw [hlist, List.mem_append, List.mem_cons] at hc
    rcases hc with hc | rfl | hc
    · simp [isTextual, hds c hc]
    · rcases hd with rfl | rfl <;> rfl
    · rcases hrest c hc with hdigit | rfl
      · simp [isTextual, hdigit]
      · rfl
  cases z with
  | ofNat n => exact hnat n h
  | negSucc n =>
    rw [intText, String.toList_append] at h
    rcases List.mem_append.1 h with h | h
    · rw [List.mem_singleton.1 (show c ∈ ['-'] from h)]
      rfl
    · exact hnat _ h

theorem natText_inj {w : Nat} (hv : IsDouble v) (hw : IsDouble w) (h : natText v = natText w) :
    v = w := by
  have hplain : ∀ n : Nat, (toString n ++ ".0").toList = Nat.toDigits 10 n ++ '.' :: ['0'] := by
    intro n
    rw [String.toList_append, Nat.toString_eq_ofList_toDigits, String.toList_ofList]
    rfl
  -- a text without exponent has no `e`
  have hmixed : ∀ m n : Nat, toString m ++ ".0" ≠ scientific n := fun m n heq => by
    have hmem : 'e' ∈ (scientific n).toList := by rw [toList_scientific]; simp
    rw [← heq, hplain] at hmem
    simp [notMem_toDigits (show 'e'.isDigit = false by decide)] at hmem
  unfold natText at h
  split_ifs at h with h1 h2 h2
  · have hlist := congrArg String.toList h
    rw [hplain, hplain] at hlist
    have hnot := notMem_toDigits (show '.'.isDigit = false by decide) v
    exact toDigits_inj (by decide) (by decide)
      ((List.append_cons_inj_of_notMem hnot (by simp)).1 hlist).1
  · exact absurd h (hmixed _ _)
  · exact absurd h.symm (hmixed _ _)
  · have hv' : 2 ^ 52 ≤ v := by omega
    have hw' : 2 ^ 52 ≤ w := by omega
    have hshort := scientific_inj (shortest_pos hv hv') (shortest_pos hw hw') h
    exact eq_of_readsBack hv hw hv' hw' (readsBack_shortest hv hv')
      (by rw [hshort]; exact readsBack_shortest hw hw')

/-- **Two doubles have two texts.** -/
theorem intText_inj {d e : Int} (hd : IsDouble d.natAbs) (he : IsDouble e.natAbs)
    (h : intText d = intText e) : d = e := by
  -- a sign is no digit
  have hsign : ∀ m n : Nat, natText m ≠ "-" ++ natText n := fun m n heq => by
    obtain ⟨ds, c, rest, hlist, hne, hdigits, -, -⟩ := toList_natText m
    obtain ⟨x, xs, rfl⟩ := List.exists_cons_of_ne_nil hne
    rw [heq, String.toList_append] at hlist
    have hx : x = '-' :=
      (List.cons.inj (show '-' :: (natText n).toList = x :: (xs ++ c :: rest) from hlist)).1.symm
    have := hdigits x (by simp)
    rw [hx] at this
    cases this
  cases d with
  | ofNat m =>
    cases e with
    | ofNat n => exact congrArg Int.ofNat (natText_inj hd he h)
    | negSucc n => exact absurd h (hsign _ _)
  | negSucc m =>
    cases e with
    | ofNat n => exact absurd h.symm (hsign _ _)
    | negSucc n =>
      have hlist := congrArg String.toList h
      rw [intText, intText, String.toList_append, String.toList_append] at hlist
      have := natText_inj hd he (String.toList_injective (List.append_cancel_left hlist))
      omega

theorem isDouble_nearestInt (z : Int) : IsDouble (nearestInt z).natAbs := by
  cases z with
  | ofNat n => exact isDouble_nearest n
  | negSucc n =>
    rw [nearestInt, Int.natAbs_neg]
    exact isDouble_nearest (n + 1)

end Rulewright.Decimal

/-- Literals have one text as doubles where they are one double. -/
theorem Rulewright.Literal.doubleText_inj {x y : Literal} (h : x.doubleText = y.doubleText) :
    x.double = y.double :=
  Decimal.intText_inj (Decimal.isDouble_nearestInt _) (Decimal.isDouble_nearestInt _) h
