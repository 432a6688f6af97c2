/-
  Blocks of consecutive positions.

  Block `m` has `f m` positions and the blocks lie one behind the other, so block `m` begins at
  `start f m`.  Every position below `start f n` lies in exactly one of the first `n` blocks
  (`exists_block`).
-/
import Mathlib.Tactic

namespace Slurmpp.Blocks

open Nat

def start (f : Nat → Nat) : Nat → Nat
  | 0 => 0
  | n + 1 => start f n + f n

variable {f g : Nat → Nat} {m n k : Nat}

@[simp] theorem start_zero : start f 0 = 0 := rfl

theorem start_succ (f : Nat → Nat) (n : Nat) : start f (n + 1) = start f n + f n := rfl

theorem start_mono (h : m ≤ n) : start f m ≤ start f n := by
  induction h with
  | refl => exact le_refl _
  | step _ ih => exact ih.trans (le_add_right _ _)

theorem start_add_le (h : m < n) : start f m + f m ≤ start f n := start_mono (f := f) h

theorem start_congr (h : ∀ m < n, f m = g m) : start f n = start g n := by
  induction n with
  | zero => rfl
  | succ n ih => rw [start, start, ih fun m hm => h m (by omega), h n (by omega)]

theorem start_add : start f (m + n) = start f m + start (fun i => f (m + i)) n := by
  induction n with
  | zero => rfl
  | succ n ih => rw [← add_assoc, start, ih, start, add_assoc]

theorem start_const (a n : Nat) : start (fun _ => a) n = a * n := by
  induction n with
  | zero => rfl
  | succ n ih => rw [start, ih, mul_succ]

theorem start_eq_of_zero (h : ∀ i, m ≤ i → f i = 0) (hmn : m ≤ n) : start f n = start f m := by
  induction hmn with
  | refl => rfl
  | @step n hmn ih => rw [start, ih, h n hmn, add_zero]

theorem start_eq_zero (h : ∀ i < n, f i = 0) : start f n = 0 := by
  rw [start_congr h, start_const, zero_mul]

/-- **Every position lies in a block.** -/
theorem exists_block (h : k < start f n) : ∃ m < n, start f m ≤ k ∧ k < start f m + f m := by
  induction n with
  | zero => exact absurd h (not_lt_zero k)
  | succ n ih =>
    rcases lt_or_ge k (start f n) with hk | hk
    · obtain ⟨m, hm, hblock⟩ := ih hk
      exact ⟨m, by omega, hblock⟩
    · exact ⟨n, lt_succ_self n, hk, h⟩

end Slurmpp.Blocks
