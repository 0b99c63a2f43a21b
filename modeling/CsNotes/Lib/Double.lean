import Mathlib.Data.Int.Log
import Mathlib.Data.Rat.Floor
import Mathlib.Tactic.Linarith

/-!
# The numbers which a double holds

The finite values of IEEE 754's binary64 among the rational numbers. A result is rounded
to the nearest one, and where two are as near to the even one. Nothing here overflows:
whoever computes with large numbers has to bound them.
-/
namespace CsNotes.Double

/-- The distance between two neighbours near `x`. -/
def ulp (x : ℚ) : ℚ := 2 ^ max (Int.log 2 |x| - 52) (-1074)

def nearest (x : ℚ) : ℤ :=
  if Int.fract x < 1 / 2 then ⌊x⌋
  else if 1 / 2 < Int.fract x then ⌊x⌋ + 1
  else if Even ⌊x⌋ then ⌊x⌋ else ⌊x⌋ + 1

def round (x : ℚ) : ℚ := nearest (x / ulp x) * ulp x

def Represented (x : ℚ) : Prop := ∃ n : ℤ, x = n * ulp x

variable {x y : ℚ}

theorem ulp_pos (x : ℚ) : 0 < ulp x := zpow_pos two_pos _

theorem nearest_intCast (n : ℤ) : nearest n = n := by
  simp [nearest]

theorem round_eq (hx : Represented x) : round x = x := by
  obtain ⟨n, hn⟩ := hx
  have hquot : x / ulp x = n := by
    rw [div_eq_iff (ulp_pos x).ne']
    exact hn
  rw [round, hquot, nearest_intCast]
  exact hn.symm

theorem exists_mul_zpow {j k : ℤ} (h : k ≤ j) (n : ℤ) : ∃ m : ℤ, (n : ℚ) * 2 ^ j = m * 2 ^ k := by
  refine ⟨n * 2 ^ (j - k).toNat, ?_⟩
  have hj : j = ((j - k).toNat : ℤ) + k := by omega
  push_cast
  conv_lhs => rw [hj]
  rw [zpow_add₀ two_ne_zero, zpow_natCast, mul_assoc]

theorem exponent_le (h : x ≠ 0) (hxy : |x| ≤ |y|) :
    max (Int.log 2 |x| - 52) (-1074) ≤ max (Int.log 2 |y| - 52) (-1074) :=
  max_le_max_right _ (Int.sub_le_sub_right (Int.log_mono_right (abs_pos.mpr h) hxy) 52)

theorem represented_zero : Represented 0 := ⟨0, by simp⟩

/-- A smaller number on the grid of a larger one is represented. -/
theorem represented_of_le {n : ℤ} (hxy : |x| ≤ |y|) (hn : x = n * ulp y) : Represented x := by
  by_cases hx : x = 0
  · subst hx
    exact represented_zero
  · obtain ⟨m, hm⟩ := exists_mul_zpow (exponent_le hx hxy) n
    exact ⟨m, hn.trans hm⟩

/-- To subtract a multiple of the spacing does not round, as long as the difference is not
negative. -/
theorem Represented.sub {n : ℤ} (hx : Represented x) (h₀ : 0 ≤ y) (hle : y ≤ x)
    (hy : y = n * ulp x) : Represented (x - y) := by
  obtain ⟨m, hm⟩ := hx
  refine represented_of_le (y := x) (n := m - n) ?_ ?_
  · rw [abs_of_nonneg (sub_nonneg.mpr hle), abs_of_nonneg (h₀.trans hle)]
    linarith
  · push_cast
    linarith

theorem exponent_le_of_lt {e : ℕ} (hx : |x| < 2 ^ (e + 53)) :
    max (Int.log 2 |x| - 52) (-1074) ≤ e := by
  refine max_le ?_ (by omega)
  rcases eq_or_ne x 0 with rfl | hne
  · simp
  · have hlog := (Int.lt_zpow_iff_log_lt (x := (e : ℤ) + 53) one_lt_two (abs_pos.mpr hne)).mp
      (by exact_mod_cast hx)
    omega

theorem represented_intCast {n : ℤ} (hn : |n| < 2 ^ 53) : Represented n := by
  have hle : max (Int.log 2 |(n : ℚ)| - 52) (-1074) ≤ (0 : ℕ) :=
    exponent_le_of_lt (by simpa using (by exact_mod_cast hn : |(n : ℚ)| < 2 ^ 53))
  obtain ⟨m, hm⟩ := exists_mul_zpow hle n
  rw [Nat.cast_zero, zpow_zero, mul_one] at hm
  exact ⟨m, hm⟩

/-- Multiples of `2 ^ e` lie on the grid of all numbers below `2 ^ (e + 53)`. -/
theorem exists_mul_ulp {e : ℕ} (n : ℤ) (hx : |x| < 2 ^ (e + 53)) :
    ∃ m : ℤ, (n : ℚ) * 2 ^ e = m * ulp x := by
  obtain ⟨m, hm⟩ := exists_mul_zpow (exponent_le_of_lt hx) n
  rw [zpow_natCast] at hm
  exact ⟨m, hm⟩

end CsNotes.Double
