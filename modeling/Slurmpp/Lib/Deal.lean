/-
  Dealing numbers out.

  The numbers 0, 1, 2, … are dealt to hands.  `Dealt hands n` says that the first `n` of them have been
  dealt, each to exactly one hand, and that every hand holds its numbers in increasing order.  Two ways
  of dealing keep it: one number after the other, each to any hand (`Dealt.snoc`); and to each hand in
  turn a block of its own size (`dealt_blocks`).
-/
import Mathlib

namespace Slurmpp

open List

/-- The numbers below `n` are in the hands, each once, and every hand is in increasing order. -/
structure Dealt (hands : List (List Nat)) (n : Nat) : Prop where
  perm : hands.flatten.Perm (range n)
  sorted : ∀ h ∈ hands, h.Pairwise (· < ·)

variable {hands l r : List (List Nat)} {h : List Nat} {n : Nat}

theorem Dealt.lt (hd : Dealt hands n) (hh : h ∈ hands) {x : Nat} (hx : x ∈ h) : x < n :=
  mem_range.1 (hd.perm.mem_iff.1 (mem_flatten_of_mem hh hx))

theorem Dealt.sum_length (hd : Dealt hands n) : (hands.map length).sum = n := by
  rw [← length_flatten, hd.perm.length_eq, length_range]

theorem Dealt.length_le (hd : Dealt hands n) (hh : h ∈ hands) : h.length ≤ n := by
  rw [← hd.sum_length]
  exact le_sum_of_mem (mem_map_of_mem hh)

theorem dealt_nil (k : Nat) : Dealt (replicate k []) 0 := by
  constructor
  · rw [flatten_replicate_nil]
    exact List.Perm.refl _
  · intro h hh
    rw [eq_of_mem_replicate hh]
    exact List.Pairwise.nil

theorem Dealt.snoc (hd : Dealt (l ++ h :: r) n) : Dealt (l ++ (h ++ [n]) :: r) (n + 1) := by
  constructor
  · have hmove : (l ++ (h ++ [n]) :: r).flatten.Perm ((l ++ h :: r).flatten ++ [n]) := by
      simp only [flatten_append, flatten_cons, append_assoc]
      exact ((perm_append_comm).append_left _).append_left _
    rw [range_succ]
    exact hmove.trans (hd.perm.append_right [n])
  · intro h' hh'
    rcases mem_append.1 hh' with hh' | hh'
    · exact hd.sorted h' (mem_append_left _ hh')
    · rcases mem_cons.1 hh' with rfl | hh'
      · -- the new number is larger than those in the hand
        refine pairwise_append.2 ⟨hd.sorted h (by simp), pairwise_singleton _ _, ?_⟩
        intro x hx y hy
        rw [mem_singleton.1 hy]
        exact hd.lt (by simp) hx
      · exact hd.sorted h' (by simp [hh'])

/-- Blocks of the given sizes, from `start` on. -/
def blocks : Nat → List Nat → List (List Nat)
  | _, [] => []
  | start, c :: cs => range' start c :: blocks (start + c) cs

theorem flatten_blocks (start : Nat) (cs : List Nat) : (blocks start cs).flatten = range' start cs.sum := by
  induction cs generalizing start with
  | nil => rfl
  | cons c cs ih => rw [blocks, flatten_cons, ih, sum_cons, ← range'_append_1]

theorem dealt_blocks (cs : List Nat) : Dealt (blocks 0 cs) cs.sum := by
  constructor
  · rw [flatten_blocks, ← range_eq_range']
  · generalize 0 = start
    induction cs generalizing start with
    | nil => simp [blocks]
    | cons c cs ih => exact forall_mem_cons.2 ⟨pairwise_lt_range', ih _⟩

end Slurmpp
