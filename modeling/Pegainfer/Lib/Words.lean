/-
Counts stored as signed 32-bit words.

A narrowing cast keeps the count modulo `2 ^ 32`, read back in `[-2 ^ 31, 2 ^ 31)`.
- `asI32_of_lt`: a count below `2 ^ 31` is kept; `asI32_lt`: no other reads as large as it is.
- `map_asI32`: a list of counts below `2 ^ 31` is kept.
-/
import Mathlib.Tactic

namespace Pegainfer.Lib

/-- `n as i32` -/
def asI32 (n : ℕ) : ℤ := (n : ℤ).bmod (2 ^ 32)

theorem asI32_of_lt {n : ℕ} (h : n < 2 ^ 31) : asI32 n = n := by
  apply Int.bmod_eq_of_le_mul_two <;> omega

theorem asI32_lt (n : ℕ) : asI32 n < 2 ^ 31 := by
  calc asI32 n < (((2 ^ 32 : ℕ) : ℤ) + 1) / 2 := Int.bmod_lt (by norm_num)
    _ = 2 ^ 31 := by norm_num

theorem map_asI32 {l : List ℕ} (h : ∀ n ∈ l, n < 2 ^ 31) : l.map asI32 = l.map Nat.cast :=
  List.map_congr_left fun n hn => asI32_of_lt (h n hn)

/-- a list of counts as words, one of which is `n` -/
theorem getElem?_map_asI32 {l : List ℕ} {i n : ℕ} (h : l[i]? = some n) (hlt : n < 2 ^ 31) :
    (l.map asI32)[i]? = some (n : ℤ) := by
  rw [List.getElem?_map, h, Option.map_some, asI32_of_lt hlt]

end Pegainfer.Lib
