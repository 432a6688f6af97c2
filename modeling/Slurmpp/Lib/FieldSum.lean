/-
  Adding up the fields of a number.

  A number is cut into `k` fields of `s` bits.  `pairSum` adds each field with an odd index to the one
  below it, all at once, with a mask and a shift, and leaves fields of `2 * s` bits.  The sum of
  all fields stays the same (`fieldSum_pairSum`), so that halving the number of fields again and
  again counts the bits of a word.
-/
import Mathlib.Tactic

namespace Slurmpp.FieldSum

open Nat

/-- The sum of the `k` lowest fields of `s` bits. -/
def fieldSum (s : Nat) : Nat → Nat → Nat
  | 0, _ => 0
  | k + 1, x => x % 2 ^ s + fieldSum s k (x / 2 ^ s)

/-- Ones in the fields with an even index, zeros in the others. -/
def evenMask (s : Nat) : Nat → Nat
  | 0 => 0
  | k + 1 => 2 ^ (2 * s) * evenMask s k + (2 ^ s - 1)

/-- `(x & mask) + ((x >> s) & mask)` -/
def pairSum (s k x : Nat) : Nat := (x &&& evenMask s k) + ((x >>> s) &&& evenMask s k)

variable {s k t a b c d x : Nat}

theorem mul_add_and (hb : b < 2 ^ t) (hd : d < 2 ^ t) :
    (2 ^ t * a + b) &&& (2 ^ t * c + d) = 2 ^ t * (a &&& c) + (b &&& d) := by
  refine eq_of_testBit_eq fun j => ?_
  have hbd : b &&& d < 2 ^ t := lt_of_le_of_lt and_le_left hb
  rw [testBit_and, testBit_two_pow_mul_add _ hb, testBit_two_pow_mul_add _ hd, testBit_two_pow_mul_add _ hbd]
  split_ifs <;> rw [testBit_and]

theorem pairSum_succ (s k x : Nat) : pairSum s (k + 1) x =
    2 ^ (2 * s) * pairSum s k (x / 2 ^ (2 * s)) + (x % 2 ^ s + x / 2 ^ s % 2 ^ s) := by
  have hpow : 2 ^ (2 * s) = 2 ^ s * 2 ^ s := by rw [Nat.two_mul, Nat.pow_add]
  have hpos : 0 < 2 ^ s := Nat.two_pow_pos s
  have hmask : 2 ^ s - 1 < 2 ^ (2 * s) := by
    have : 2 ^ s * 1 ≤ 2 ^ s * 2 ^ s := Nat.mul_le_mul_left _ hpos
    rw [hpow]
    omega
  have hlow : ∀ y, y &&& evenMask s (k + 1) = 2 ^ (2 * s) * (y / 2 ^ (2 * s) &&& evenMask s k) + y % 2 ^ s := by
    intro y
    have hmod : y % 2 ^ (2 * s) % 2 ^ s = y % 2 ^ s := by
      rw [hpow]
      exact Nat.mod_mul_left_mod y (2 ^ s) (2 ^ s)
    conv_lhs => rw [← Nat.div_add_mod y (2 ^ (2 * s)), evenMask]
    rw [mul_add_and (Nat.mod_lt _ (Nat.two_pow_pos _)) hmask, Nat.and_two_pow_sub_one_eq_mod, hmod]
  have hshift : x / 2 ^ s / 2 ^ (2 * s) = x / 2 ^ (2 * s) / 2 ^ s := by
    rw [Nat.div_div_eq_div_mul, Nat.div_div_eq_div_mul, Nat.mul_comm]
  rw [pairSum, hlow, hlow, Nat.shiftRight_eq_div_pow, hshift, pairSum, Nat.shiftRight_eq_div_pow]
  ring

theorem add_lt_of_fields (hs : 0 < s) (x y : Nat) : x % 2 ^ s + y % 2 ^ s < 2 ^ (2 * s) := by
  have hx := Nat.mod_lt x (Nat.two_pow_pos s)
  have hy := Nat.mod_lt y (Nat.two_pow_pos s)
  have : 2 ^ (s + 1) ≤ 2 ^ (2 * s) := Nat.pow_le_pow_right (by decide) (by omega)
  rw [Nat.pow_succ] at this
  omega

theorem fieldSum_pairSum (hs : 0 < s) : fieldSum (2 * s) k (pairSum s k x) = fieldSum s (2 * k) x := by
  induction k generalizing x with
  | zero => rfl
  | succ k ih =>
    have hlt := add_lt_of_fields hs x (x / 2 ^ s)
    have hpow : 2 ^ (2 * s) = 2 ^ s * 2 ^ s := by rw [Nat.two_mul, Nat.pow_add]
    rw [show 2 * (k + 1) = 2 * k + 1 + 1 by omega, fieldSum, fieldSum, fieldSum, pairSum_succ,
      Nat.mul_add_mod, Nat.mod_eq_of_lt hlt, Nat.mul_add_div (Nat.two_pow_pos _), Nat.div_eq_of_lt hlt,
      Nat.add_zero, ih, hpow, Nat.div_div_eq_div_mul, Nat.add_assoc]

theorem pairSum_lt (hs : 0 < s) (k x : Nat) : pairSum s k x < 2 ^ (2 * s * k) := by
  induction k generalizing x with
  | zero => simp [pairSum, evenMask]
  | succ k ih =>
    have hlt := add_lt_of_fields hs x (x / 2 ^ s)
    have hrest : 2 ^ (2 * s) * (pairSum s k (x / 2 ^ (2 * s)) + 1) ≤ 2 ^ (2 * s) * 2 ^ (2 * s * k) :=
      mul_le_mul_left _ (ih _)
    rw [pairSum_succ, mul_succ (2 * s), add_comm (2 * s * k), pow_add]
    rw [mul_succ] at hrest
    omega

theorem fieldSum_one : fieldSum 1 k x = (List.range k).countP (x.testBit ·) := by
  induction k generalizing x with
  | zero => rfl
  | succ k ih =>
    rw [fieldSum, ih, List.range_succ_eq_map, List.countP_cons, List.countP_map]
    have hbit : (if x.testBit 0 = true then 1 else 0) = x % 2 ^ 1 := by
      rw [testBit_zero]
      have := mod_two_eq_zero_or_one x
      rcases this with h | h <;> simp [h]
    rw [hbit, add_comm]
    congr 2
    funext j
    simp [testBit_succ]

end Slurmpp.FieldSum
