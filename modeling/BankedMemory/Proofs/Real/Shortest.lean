import BankedMemory.Real.Single
import Mathlib.Algebra.Order.Field.Power
import Mathlib.Algebra.Order.Floor.Semifield
import Mathlib.Data.Rat.Floor
import Mathlib.Order.Compare
import Mathlib.Tactic.FieldSimp
import Mathlib.Tactic.Linarith
import Mathlib.Tactic.Positivity
import Mathlib.Tactic.Ring

/-!
# The decimal a real is printed as

The comparisons and quotients of the search for the shortest decimal are those of rational numbers
(`Binary.accepts_iff`, `Binary.digits_below`). On each grid of powers of ten the value lies between
two neighbouring points, and a point beyond one of them rounds to the value only if that one does
(`Binary.Covers.beyond`). So a grid is passed over only if it has nothing to take, and a real is
printed as a decimal on the coarsest grid that has any, the nearest one there:
`Single.text_shortest`.
-/

namespace BankedMemory

/-- The number a decimal stands for. -/
def Decimal.value (d : Decimal) : ℚ := d.digits * 10 ^ d.exponent

namespace Binary

/-- The number that the value stands for. -/
def value (b : Binary) : ℚ := b.mantissa * 2 ^ b.exponent

/-- The number rounds to the value: it lies between the ends, and is an end only if the mantissa is
even. -/
structure Covers (b : Binary) (x : ℚ) : Prop where
  low_le : b.low * 2 ^ (b.exponent - 2) ≤ x
  le_high : x ≤ b.high * 2 ^ (b.exponent - 2)
  even : x = b.low * 2 ^ (b.exponent - 2) ∨ x = b.high * 2 ^ (b.exponent - 2) →
    b.mantissa % 2 = 0

end Binary

theorem pow_toNat {a : ℚ} (ha : 0 < a) (e : Int) : a ^ e.toNat = a ^ e * a ^ (-e).toNat := by
  have hne : a ≠ 0 := ha.ne'
  rw [← zpow_natCast, ← zpow_natCast, ← zpow_add₀ hne]
  congr 1
  omega

/-- Clearing denominators does not change the order. -/
theorem Decimal.compareBinary_spec (d : Decimal) (b : Nat) (q : Int) :
    (d.compareBinary b q = .lt ↔ d.value < b * 2 ^ q) ∧
      (d.compareBinary b q = .eq ↔ d.value = b * 2 ^ q) ∧
      (d.compareBinary b q = .gt ↔ b * 2 ^ q < d.value) := by
  have hpos : (0 : ℚ) < 10 ^ (-d.exponent).toNat * 2 ^ (-q).toNat := by positivity
  have hleft : ((d.digits * 10 ^ d.exponent.toNat * 2 ^ (-q).toNat : Nat) : ℚ) =
      d.value * (10 ^ (-d.exponent).toNat * 2 ^ (-q).toNat) := by
    push_cast
    rw [pow_toNat (by norm_num), value]
    ring
  have hright : ((b * 2 ^ q.toNat * 10 ^ (-d.exponent).toNat : Nat) : ℚ) =
      b * 2 ^ q * (10 ^ (-d.exponent).toNat * 2 ^ (-q).toNat) := by
    push_cast
    rw [pow_toNat (by norm_num)]
    ring
  unfold compareBinary
  simp only [Nat.pow_eq]
  rw [compare_lt_iff_lt, compare_eq_iff_eq, compare_gt_iff_gt, ← Nat.cast_lt (α := ℚ),
    ← Nat.cast_inj (R := ℚ), ← Nat.cast_lt (α := ℚ), hleft, hright, mul_lt_mul_iff_left₀ hpos,
    mul_lt_mul_iff_left₀ hpos, mul_left_inj' hpos.ne']
  exact ⟨.rfl, .rfl, .rfl⟩

namespace Binary

theorem accepts_iff (b : Binary) (d : Decimal) : b.accepts d = true ↔ b.Covers d.value := by
  have hcovers : b.Covers d.value ↔
      (b.low * 2 ^ (b.exponent - 2) ≤ d.value ∧
        (d.value = b.low * 2 ^ (b.exponent - 2) → b.mantissa % 2 = 0)) ∧
      d.value ≤ b.high * 2 ^ (b.exponent - 2) ∧
        (d.value = b.high * 2 ^ (b.exponent - 2) → b.mantissa % 2 = 0) :=
    ⟨fun h => ⟨⟨h.low_le, fun heq => h.even (.inl heq)⟩, h.le_high, fun heq => h.even (.inr heq)⟩,
      fun ⟨⟨hle, heven⟩, hle', heven'⟩ => ⟨hle, hle', fun h => h.elim heven heven'⟩⟩
  obtain ⟨hlt, heq, hgt⟩ := d.compareBinary_spec b.low (b.exponent - 2)
  obtain ⟨hlt', heq', hgt'⟩ := d.compareBinary_spec b.high (b.exponent - 2)
  unfold accepts
  simp only
  rw [hcovers, Bool.and_eq_true]
  refine and_congr ?_ ?_
  · cases hcompare : d.compareBinary b.low (b.exponent - 2) with
    | lt => simp [hlt.mp hcompare]
    | eq => simp [heq.mp hcompare]
    | gt =>
      have habove := hgt.mp hcompare
      simp [habove.le, habove.ne']
  · cases hcompare : d.compareBinary b.high (b.exponent - 2) with
    | lt =>
      have hbelow := hlt'.mp hcompare
      simp [hbelow.le, hbelow.ne]
    | eq => simp [heq'.mp hcompare]
    | gt => simp [hgt'.mp hcompare]

variable {b : Binary} {p : Int} {n : Nat} {d : Decimal} {x y : ℚ}

/-- The value in quarters of its last place. -/
theorem value_eq (b : Binary) : b.value = (4 * b.mantissa : Nat) * 2 ^ (b.exponent - 2) := by
  unfold value
  rw [zpow_sub₀ (by norm_num)]
  push_cast
  ring

theorem low_lt_value (hpos : 0 < b.mantissa) : b.low * 2 ^ (b.exponent - 2) < b.value := by
  have hlt : b.low < 4 * b.mantissa := by
    unfold low
    split <;> omega
  rw [value_eq]
  have hunit : (0 : ℚ) < 2 ^ (b.exponent - 2) := by positivity
  exact mul_lt_mul_of_pos_right (Nat.cast_lt.mpr hlt) hunit

theorem value_lt_high (b : Binary) : b.value < b.high * 2 ^ (b.exponent - 2) := by
  rw [value_eq]
  have hunit : (0 : ℚ) < 2 ^ (b.exponent - 2) := by positivity
  have hlt : 4 * b.mantissa < b.high := Nat.lt_add_of_pos_right (by decide)
  exact mul_lt_mul_of_pos_right (Nat.cast_lt.mpr hlt) hunit

/-- What lies between a number that is covered and the value is covered. -/
theorem Covers.of_between (hx : b.Covers x) (hpos : 0 < b.mantissa)
    (h : x ≤ y ∧ y ≤ b.value ∨ b.value ≤ y ∧ y ≤ x) : b.Covers y := by
  have hlow := low_lt_value hpos
  have hhigh := b.value_lt_high
  obtain ⟨h1, h2, h3⟩ := hx
  rcases h with ⟨h, h'⟩ | ⟨h, h'⟩
  · refine ⟨h1.trans h, h'.trans hhigh.le, ?_⟩
    rintro (heq | heq)
    · exact h3 (.inl (le_antisymm (h.trans_eq heq) h1))
    · exact absurd heq (h'.trans_lt hhigh).ne
  · refine ⟨hlow.le.trans h, h'.trans h2, ?_⟩
    rintro (heq | heq)
    · exact absurd heq (hlow.trans_le h).ne'
    · exact h3 (.inr (le_antisymm h2 (heq.symm.trans_le h')))

theorem digits_below (b : Binary) (p : Int) : (b.below p).digits = ⌊b.value / 10 ^ p⌋₊ := by
  have hfraction : b.value / 10 ^ p =
      (b.mantissa * 2 ^ b.exponent.toNat * 10 ^ (-p).toNat : Nat) /
        (2 ^ (-b.exponent).toNat * 10 ^ p.toNat : Nat) := by
    push_cast
    rw [pow_toNat (by norm_num) b.exponent, pow_toNat (by norm_num) p, value]
    field_simp
  rw [hfraction, Nat.floor_div_eq_div]
  simp only [below, Nat.pow_eq]

theorem value_below (b : Binary) (p : Int) :
    (b.below p).value = ⌊b.value / 10 ^ p⌋₊ * 10 ^ p := by
  rw [← digits_below]
  rfl

theorem value_above (b : Binary) (p : Int) :
    (b.above p).value = (⌊b.value / 10 ^ p⌋₊ + 1 : Nat) * 10 ^ p := by
  rw [← digits_below]
  rfl

/-- The value lies between the two points of the grid. -/
theorem below_le_value (b : Binary) (p : Int) : (b.below p).value ≤ b.value := by
  have hunit : (0 : ℚ) < 10 ^ p := by positivity
  rw [value_below, ← le_div_iff₀ hunit]
  exact Nat.floor_le (div_nonneg (by unfold value; positivity) hunit.le)

theorem value_lt_above (b : Binary) (p : Int) : b.value < (b.above p).value := by
  have hunit : (0 : ℚ) < 10 ^ p := by positivity
  rw [value_above, ← div_lt_iff₀ hunit, Nat.cast_add_one]
  exact Nat.lt_floor_add_one _

theorem Covers.digits_ne_zero (hd : b.Covers d.value) (hpos : 0 < b.mantissa) : d.digits ≠ 0 := by
  intro hzero
  have hlow : 0 < b.low := by
    unfold low
    split <;> omega
  have hunit : (0 : ℚ) < 2 ^ (b.exponent - 2) := by positivity
  have hlt := (mul_pos (Nat.cast_pos.mpr hlow) hunit).trans_le hd.low_le
  rw [Decimal.value, hzero, Nat.cast_zero, zero_mul] at hlt
  exact lt_irrefl _ hlt

theorem onGrid?_eq_none (hnone : b.onGrid? p = none) :
    ((b.below p).digits = 0 ∨ b.accepts (b.below p) = false) ∧ b.accepts (b.above p) = false := by
  unfold onGrid? at hnone
  split at hnone
  · cases hnone
  · cases hnone
  · cases hnone
  · next hbelow habove => exact ⟨by simpa [or_iff_not_imp_left] using hbelow, habove⟩

theorem nearerBelow_iff : b.nearerBelow p = true ↔
    b.value - (b.below p).value < (b.above p).value - b.value := by
  have hmiddle : (⟨2 * (b.below p).digits + 1, p⟩ : Decimal).value =
      (b.below p).value + (b.above p).value := by
    simp only [Decimal.value, below, above]
    push_cast
    ring
  have htwice : ((2 * b.mantissa : Nat) : ℚ) * 2 ^ b.exponent = 2 * b.value := by
    rw [value]
    push_cast
    ring
  unfold nearerBelow
  rw [beq_iff_eq, (Decimal.compareBinary_spec _ _ _).2.2, hmiddle, htwice]
  constructor <;> intro h <;> linarith

/-- A decimal on the grid of `d` that is covered is beyond the point below the value, or the point
above it, and that point is covered as well. -/
theorem Covers.beyond (hd : b.Covers d.value) (hpos : 0 < b.mantissa) :
    (d.value ≤ (b.below d.exponent).value ∧ (b.below d.exponent).digits ≠ 0 ∧
      b.accepts (b.below d.exponent) = true) ∨
    ((b.above d.exponent).value ≤ d.value ∧ b.accepts (b.above d.exponent) = true) := by
  have hunit : (0 : ℚ) ≤ 10 ^ d.exponent := by positivity
  have hne := hd.digits_ne_zero hpos
  have hbelow := b.below_le_value d.exponent
  have habove := b.value_lt_above d.exponent
  rcases Nat.lt_or_ge (b.below d.exponent).digits d.digits with hlt | hge
  · have hle : (b.above d.exponent).value ≤ d.value :=
      mul_le_mul_of_nonneg_right (Nat.cast_le.mpr hlt) hunit
    exact .inr ⟨hle, (b.accepts_iff _).mpr (hd.of_between hpos (.inr ⟨habove.le, hle⟩))⟩
  · have hle : d.value ≤ (b.below d.exponent).value :=
      mul_le_mul_of_nonneg_right (Nat.cast_le.mpr hge) hunit
    exact .inl ⟨hle, by omega, (b.accepts_iff _).mpr (hd.of_between hpos (.inl ⟨hle, hbelow⟩))⟩

/-- Where a decimal is covered, its grid is not passed over. -/
theorem Covers.onGrid?_ne_none (hd : b.Covers d.value) (hpos : 0 < b.mantissa) :
    b.onGrid? d.exponent ≠ none := by
  intro hnone
  obtain ⟨hbelow, habove⟩ := onGrid?_eq_none hnone
  rcases hd.beyond hpos with ⟨-, hne, haccepted⟩ | ⟨-, haccepted⟩
  · rw [haccepted] at hbelow
    exact hbelow.elim hne Bool.noConfusion
  · cases habove.symm.trans haccepted

/-- Of the decimals on one grid that are covered, `d` is one, and none is nearer to the value. -/
structure Nearest (b : Binary) (d : Decimal) : Prop where
  covers : b.Covers d.value
  nearest : ∀ d' : Decimal, d'.exponent = d.exponent → b.Covers d'.value →
    |d.value - b.value| ≤ |d'.value - b.value|

theorem nearest_of_onGrid? (hpos : 0 < b.mantissa) (hsome : b.onGrid? p = some d) :
    d.exponent = p ∧ b.Nearest d := by
  have hbelow := b.below_le_value p
  have habove := (b.value_lt_above p).le
  have hdown : |(b.below p).value - b.value| = b.value - (b.below p).value := by
    rw [abs_of_nonpos (by linarith), neg_sub]
  have hup : |(b.above p).value - b.value| = (b.above p).value - b.value :=
    abs_of_nonneg (by linarith)
  have hfar : ∀ d' : Decimal, d'.exponent = p → b.Covers d'.value →
      (b.value - (b.below p).value ≤ |d'.value - b.value| ∧ (b.below p).digits ≠ 0 ∧
        b.accepts (b.below p) = true) ∨
      ((b.above p).value - b.value ≤ |d'.value - b.value| ∧ b.accepts (b.above p) = true) := by
    rintro d' rfl hd'
    rcases hd'.beyond hpos with ⟨hle, haccepted⟩ | ⟨hle, haccepted⟩
    · exact .inl ⟨le_abs.mpr (.inr (by linarith)), haccepted⟩
    · exact .inr ⟨le_abs.mpr (.inl (by linarith)), haccepted⟩
  unfold onGrid? at hsome
  split at hsome
  · next hb ha =>
    cases hsome
    rw [Bool.and_eq_true] at hb
    -- both points are covered, and the nearer one is taken
    split
    · next hnear =>
      have hless := nearerBelow_iff.mp hnear
      refine ⟨rfl, (b.accepts_iff _).mp hb.2, fun d' hd' hcovers => ?_⟩
      rcases hfar d' hd' hcovers with ⟨hle, -⟩ | ⟨hle, -⟩ <;> linarith
    · next hnear =>
      have hless := not_lt.mp (mt nearerBelow_iff.mpr hnear)
      refine ⟨rfl, (b.accepts_iff _).mp ha, fun d' hd' hcovers => ?_⟩
      rcases hfar d' hd' hcovers with ⟨hle, -⟩ | ⟨hle, -⟩ <;> linarith
  · next hb ha =>
    cases hsome
    rw [Bool.and_eq_true] at hb
    refine ⟨rfl, (b.accepts_iff _).mp hb.2, fun d' hd' hcovers => ?_⟩
    rcases hfar d' hd' hcovers with ⟨hle, -⟩ | ⟨-, haccepted⟩
    · rwa [hdown]
    · cases ha.symm.trans haccepted
  · next hb ha =>
    cases hsome
    refine ⟨rfl, (b.accepts_iff _).mp ha, fun d' hd' hcovers => ?_⟩
    rcases hfar d' hd' hcovers with ⟨-, hne, haccepted⟩ | ⟨hle, -⟩
    · rw [haccepted, bne_iff_ne.mpr hne] at hb
      cases hb
    · rwa [hup]
  · cases hsome

/-! ## From grid to grid -/

/-- The search takes the first grid that has a decimal to take, if one of the `n` has. -/
theorem search_cases (b : Binary) (p : Int) (n : Nat) :
    (∃ k < n, ∃ d, b.search p n = some d ∧ b.onGrid? (p - k) = some d ∧
      ∀ q ≤ p, p - k < q → b.onGrid? q = none) ∨
    b.search p n = none ∧ ∀ q ≤ p, p - n < q → b.onGrid? q = none := by
  induction n generalizing p with
  | zero => exact .inr ⟨rfl, fun q hle hlt => by omega⟩
  | succ n ih =>
    unfold search
    split
    · next d hd =>
      refine .inl ⟨0, n.succ_pos, d, rfl, by simpa using hd, fun q hle hlt => by omega⟩
    · next hnone =>
      have hextend : ∀ m : Nat, (∀ q ≤ p - 1, p - 1 - m < q → b.onGrid? q = none) →
          ∀ q ≤ p, p - (m + 1 : Nat) < q → b.onGrid? q = none := fun m hrest q hle hlt => by
        rcases hle.eq_or_lt with rfl | hlt'
        · exact hnone
        · exact hrest q (by omega) (by omega)
      rcases ih (p - 1) with ⟨k, hk, d, hd, hgrid, hrest⟩ | ⟨hd, hrest⟩
      · refine .inl ⟨k + 1, Nat.succ_lt_succ hk, d, hd, ?_, hextend k hrest⟩
        rwa [show p - ((k + 1 : Nat) : Int) = p - 1 - k by omega]
      · exact .inr ⟨hd, hextend n hrest⟩

/-- The value itself is a decimal. -/
theorem value_exact (b : Binary) : b.exact.value = b.value := by
  have hexponent : min b.exponent 0 = -((-b.exponent).toNat : Int) := by omega
  have hten : (10 : ℚ) ^ (-b.exponent).toNat = 5 ^ (-b.exponent).toNat * 2 ^ (-b.exponent).toNat := by
    rw [← mul_pow]
    norm_num
  simp only [exact, Decimal.value, value, Nat.pow_eq]
  push_cast
  rw [hexponent, zpow_neg, zpow_natCast, pow_toNat (by norm_num) b.exponent, hten]
  field_simp

/-- Where the search begins: no decimal on a coarser grid is covered. -/
def firstGrid (b : Binary) : Int := b.mantissa.log2 + 1 + max b.exponent 0

theorem Covers.exponent_le (hd : b.Covers d.value) (hpos : 0 < b.mantissa) :
    d.exponent ≤ b.firstGrid := by
  by_contra hlt
  rw [not_le] at hlt
  have hunit : (0 : ℚ) < 2 ^ b.exponent := by positivity
  have hmantissa : ((b.mantissa + 1 : Nat) : ℚ) ≤ 2 ^ (b.mantissa.log2 + 1) := by
    exact_mod_cast (Nat.lt_log2_self : b.mantissa < 2 ^ (b.mantissa.log2 + 1))
  have hhigh : (b.high : ℚ) * 2 ^ (b.exponent - 2) ≤ (b.mantissa + 1 : Nat) * 2 ^ b.exponent := by
    rw [high, zpow_sub₀ (by norm_num)]
    push_cast
    linarith
  have hreach : ((b.mantissa + 1 : Nat) : ℚ) * 2 ^ b.exponent ≤ 2 ^ b.firstGrid := by
    have hexponent : (2 : ℚ) ^ b.exponent ≤ 2 ^ max b.exponent 0 :=
      zpow_le_zpow_right₀ (by norm_num) (le_max_left ..)
    have hsum : (2 : ℚ) ^ b.firstGrid = 2 ^ (b.mantissa.log2 + 1) * 2 ^ max b.exponent 0 := by
      rw [firstGrid, zpow_add₀ (by norm_num)]
      norm_cast
    rw [hsum]
    exact mul_le_mul hmantissa hexponent hunit.le (by positivity)
  have hgrid : (2 : ℚ) ^ b.firstGrid < 10 ^ d.exponent := by
    have hfirst : 0 ≤ b.firstGrid := by
      unfold firstGrid
      omega
    calc (2 : ℚ) ^ b.firstGrid < 2 ^ d.exponent := zpow_lt_zpow_right₀ (by norm_num) hlt
      _ ≤ 10 ^ d.exponent := zpow_le_zpow_left₀ (by omega) (by norm_num) (by norm_num)
  have hdecimal : (10 : ℚ) ^ d.exponent ≤ d.value := by
    have hone : (1 : ℚ) ≤ d.digits := by
      exact_mod_cast Nat.one_le_iff_ne_zero.mpr (hd.digits_ne_zero hpos)
    exact le_mul_of_one_le_left (by positivity) hone
  have hend := hd.le_high
  linarith

theorem shortest_eq (b : Binary) : b.shortest =
    (b.search b.firstGrid (b.firstGrid - min b.exponent 0).toNat).getD b.exact := rfl

theorem covers_value (hpos : 0 < b.mantissa) : b.Covers b.value where
  low_le := (low_lt_value hpos).le
  le_high := b.value_lt_high.le
  even := by
    rintro (heq | heq)
    · exact absurd heq (low_lt_value hpos).ne'
    · exact absurd heq b.value_lt_high.ne

/-- The shortest decimal is covered, none on its grid is nearer to the value, and none on a coarser
grid is covered. -/
theorem shortest_spec (hpos : 0 < b.mantissa) : b.Nearest b.shortest ∧
    ∀ d : Decimal, b.Covers d.value → d.exponent ≤ b.shortest.exponent := by
  have hcoarse : ∀ {q : Int}, (∀ p ≤ b.firstGrid, q < p → b.onGrid? p = none) →
      ∀ d : Decimal, b.Covers d.value → d.exponent ≤ q := by
    intro q hnone d hd
    by_contra hlt
    exact hd.onGrid?_ne_none hpos (hnone _ (hd.exponent_le hpos) (not_le.mp hlt))
  rw [shortest_eq]
  rcases b.search_cases b.firstGrid (b.firstGrid - min b.exponent 0).toNat with
    ⟨k, -, d, hd, hgrid, hnone⟩ | ⟨hd, hnone⟩
  · obtain ⟨hexponent, hnearest⟩ := nearest_of_onGrid? hpos hgrid
    rw [hd, Option.getD_some, hexponent]
    exact ⟨hnearest, hcoarse hnone⟩
  · -- every grid above that of the value itself was passed over
    rw [hd, Option.getD_none]
    refine ⟨⟨?_, fun d _ _ => ?_⟩, hcoarse fun p hle hlt => hnone p hle ?_⟩
    · rw [value_exact]
      exact covers_value hpos
    · rw [value_exact, sub_self, abs_zero]
      exact abs_nonneg _
    · have hgrid : min b.exponent 0 < p := hlt
      omega

end Binary

theorem Single.mantissa_pos {x : Single} (hne : x.isZero = false) : 0 < x.magnitude.mantissa := by
  unfold magnitude
  split
  · next hzero =>
    refine Nat.pos_of_ne_zero fun hfraction => ?_
    have hfraction : x.fraction = 0 := hfraction
    rw [isZero, hzero, hfraction] at hne
    cases hne
  · exact Nat.add_pos_right _ (by decide)

/-- A finite real other than zero is printed as its sign and a decimal that rounds to it, on the
coarsest grid that has one, and nearest to it there. -/
theorem Single.text_shortest {x : Single} (hfinite : x.exponentField ≠ 255)
    (hne : x.isZero = false) : ∃ d : Decimal,
      x.text = (if x.isNegative then "-" else "") ++ d.text ∧ x.magnitude.Nearest d ∧
      ∀ d' : Decimal, x.magnitude.Covers d'.value → d'.exponent ≤ d.exponent := by
  refine ⟨_, ?_, Binary.shortest_spec (mantissa_pos hne)⟩
  have hnan : x.isNaN = false := by simp [isNaN, hfinite]
  have hinfinite : x.isInfinite = false := by simp [isInfinite, hfinite]
  unfold text
  rw [hnan, hinfinite, hne]
  rfl

/-- The number nearest to a tenth. -/
example : (Single.mk 0x3DCCCCCD).text = "0.1" := by decide +kernel

end BankedMemory
