/-
  Preorder numbers of a full tree.  `place w k x` says where number `x` stands in the full `w`-ary tree of height `k`:
  its parent, the height of the tree below it and its depth.

  1. **One step up** — `place_parent`: a node is the root of one of the `w` blocks of its parent.
  2. **Subtrees are intervals** — `above_iff`.  The one fact that needs the order of the subtrees is `gap`: what stands
     between a node and its parent lies in blocks that are closed before the node.
-/
import Mathlib.Logic.Relation
import Mathlib.Tactic

namespace Slurmpp.FullTree

open Nat

/-- The number of nodes of the full tree of height `k`. -/
def size (w : Nat) : Nat → Nat
  | 0 => 1
  | k + 1 => 1 + w * size w k

structure Place where
  parent : Nat
  /-- the height of the subtree below it -/
  height : Nat
  depth : Nat
deriving DecidableEq

/-- The place of number `x` in the full tree of height `k`.  Number `x + 1` lies in block
    `x / size w k` below the root. -/
def place (w : Nat) : Nat → Nat → Place
  | k, 0 => ⟨0, k, 0⟩
  | 0, _ + 1 => ⟨0, 0, 0⟩
  | k + 1, x + 1 =>
    let y := x % size w k
    let p := place w k y
    ⟨if y = 0 then 0 else 1 + x / size w k * size w k + p.parent, p.height, p.depth + 1⟩

variable {w k q x y r n : Nat}

theorem size_pos (w k : Nat) : 0 < size w k := by
  cases k with
  | zero => exact one_pos
  | succ k =>
    rw [size]
    omega

theorem size_succ_eq_add_pow (w k : Nat) : size w (k + 1) = size w k + w ^ (k + 1) := by
  induction k with
  | zero => simp [size]
  | succ k ih =>
    have hsize : 1 + w * size w k = size w (k + 1) := rfl
    rw [size, ih, mul_add, ← pow_succ', ← add_assoc, hsize, ih]

theorem size_mul_pred (hw : 0 < w) (k : Nat) : (w - 1) * size w k + 1 = w ^ (k + 1) := by
  obtain ⟨v, rfl⟩ : ∃ v, w = v + 1 := ⟨w - 1, by omega⟩
  rw [Nat.add_sub_cancel]
  induction k with
  | zero => simp [size]
  | succ k ih =>
    rw [size_succ_eq_add_pow, Nat.mul_add, Nat.add_right_comm, ih]
    ring

theorem size_lt_succ (hw : 0 < w) (k : Nat) : size w k < size w (k + 1) := by
  rw [size_succ_eq_add_pow]
  have := pow_pos (n := k + 1) hw
  omega

theorem lt_size (hw : 0 < w) (k : Nat) : k < size w k := by
  induction k with
  | zero => exact one_pos
  | succ k ih =>
    have := size_lt_succ hw k
    omega

theorem exists_block (hpos : 0 < x) (hx : x < size w (k + 1)) :
    ∃ q y, q < w ∧ y < size w k ∧ x = 1 + q * size w k + y := by
  have hs := size_pos w k
  rw [size] at hx
  have hdiv := div_add_mod (x - 1) (size w k)
  rw [mul_comm] at hdiv
  refine ⟨(x - 1) / size w k, (x - 1) % size w k, ?_, mod_lt _ hs, by omega⟩
  rw [div_lt_iff_lt_mul hs]
  omega

theorem place_block (hy : y < size w k) :
    place w (k + 1) (1 + q * size w k + y) =
      ⟨if y = 0 then 0 else 1 + q * size w k + (place w k y).parent, (place w k y).height,
        (place w k y).depth + 1⟩ := by
  have hs := size_pos w k
  have hmod : (q * size w k + y) % size w k = y := by
    rw [mul_add_mod_self_right, mod_eq_of_lt hy]
  have hdiv : (q * size w k + y) / size w k = q := by
    rw [add_comm, add_mul_div_right _ _ hs, div_eq_of_lt hy, zero_add]
  rw [show 1 + q * size w k + y = q * size w k + y + 1 by omega, place, hmod, hdiv]

@[simp] theorem place_zero : place w k 0 = ⟨0, k, 0⟩ := by
  cases k <;> rfl

theorem block_le (hq : q < w) (hy : y ≤ size w k) : 1 + q * size w k + y ≤ size w (k + 1) := by
  have : (q + 1) * size w k ≤ w * size w k := mul_le_mul_right _ hq
  rw [size]
  rw [add_mul, one_mul] at this
  omega

section

variable (hx : x < size w k)
include hx

theorem place_height_add_depth : (place w k x).height + (place w k x).depth = k := by
  induction k generalizing x with
  | zero => rw [show x = 0 by rw [size] at hx; omega]; simp
  | succ k ih =>
    rcases Nat.eq_zero_or_pos x with rfl | hpos
    · simp
    · obtain ⟨q, y, -, hy, rfl⟩ := exists_block hpos hx
      rw [place_block hy]
      have := ih hy
      dsimp only
      omega

theorem add_size_place_le : x + size w (place w k x).height ≤ size w k := by
  induction k generalizing x with
  | zero => rw [show x = 0 by rw [size] at hx; omega]; simp
  | succ k ih =>
    rcases Nat.eq_zero_or_pos x with rfl | hpos
    · simp
    · obtain ⟨q, y, hq, hy, rfl⟩ := exists_block hpos hx
      rw [place_block hy, Nat.add_assoc]
      exact block_le hq (ih hy)

/-- **One step up**: the parent is one level higher, and the number starts one of its blocks. -/
theorem place_parent (hpos : 0 < x) :
    (place w k (place w k x).parent).height = (place w k x).height + 1 ∧
      (place w k x).depth = (place w k (place w k x).parent).depth + 1 ∧
      ∃ j, j < w ∧ x = (place w k x).parent + 1 + j * size w (place w k x).height := by
  induction k generalizing x with
  | zero =>
    rw [size] at hx
    omega
  | succ k ih =>
    obtain ⟨q, y, hq, hy, rfl⟩ := exists_block hpos hx
    rw [place_block hy]
    rcases Nat.eq_zero_or_pos y with rfl | hy0
    · -- the root of a block hangs below the root of the tree
      simp only [if_true, place_zero]
      exact ⟨trivial, trivial, q, hq, by omega⟩
    · obtain ⟨hh, hd, j, hj, hxj⟩ := ih hy hy0
      have hp : (place w k y).parent < size w k := by omega
      simp only [if_neg (Nat.pos_iff_ne_zero.1 hy0)]
      rw [place_block hp]
      exact ⟨hh, by rw [hd], j, hj, by omega⟩

theorem place_parent_lt (hpos : 0 < x) : (place w k x).parent < x := by
  obtain ⟨-, -, j, -, hj⟩ := place_parent hx hpos
  omega

theorem add_size_le_parent (hpos : 0 < x) :
    x + size w (place w k x).height ≤ (place w k x).parent + size w (place w k (place w k x).parent).height := by
  obtain ⟨hh, -, j, hj, hxj⟩ := place_parent hx hpos
  have := block_le (k := (place w k x).height) hj (le_refl _)
  rw [hh]
  omega

/-- **What stands between a node and its parent is closed before the node.** -/
theorem gap (hr : (place w k x).parent < r) (hrx : r < x) :
    r + size w (place w k r).height ≤ x := by
  induction k generalizing x r with
  | zero =>
    rw [size] at hx
    omega
  | succ k ih =>
    obtain ⟨q, y, hq, hy, rfl⟩ := exists_block (by omega : 0 < x) hx
    obtain ⟨q', y', hq', hy', rfl⟩ := exists_block (by omega : 0 < r) (hrx.trans hx)
    have hle := add_size_place_le hy'
    rw [place_block hy] at hr
    rw [place_block hy']
    dsimp only at hr ⊢
    -- an earlier block ends before the block of `x` starts
    rcases lt_trichotomy q' q with hlt | rfl | hgt
    · have hend : (q' + 1) * size w k ≤ q * size w k := mul_le_mul_right _ hlt
      rw [add_mul, one_mul] at hend
      omega
    · rw [if_neg (by omega)] at hr
      have := ih hy (r := y') (by omega) (by omega)
      omega
    · have hend : (q + 1) * size w k ≤ q' * size w k := mul_le_mul_right _ hgt
      rw [add_mul, one_mul] at hend
      omega

end

/-- `p` is the parent of `x` among the first `n` numbers. -/
def IsParent (w k n p x : Nat) : Prop := 0 < x ∧ x < n ∧ (place w k x).parent = p

theorem add_size_le_of_above (hn : n ≤ size w k) (h : Relation.TransGen (IsParent w k n) r x) :
    r < x ∧ x < n ∧ x + size w (place w k x).height ≤ r + size w (place w k r).height := by
  induction h with
  | @single x h =>
    obtain ⟨hpos, hlt, rfl⟩ := h
    exact ⟨place_parent_lt (hlt.trans_le hn) hpos, hlt, add_size_le_parent (hlt.trans_le hn) hpos⟩
  | @tail p x _ h ih =>
    obtain ⟨hpos, hlt, rfl⟩ := h
    have hp := place_parent_lt (hlt.trans_le hn) hpos
    have hle := add_size_le_parent (hlt.trans_le hn) hpos
    exact ⟨by omega, hlt, by omega⟩

/-- **Subtrees are intervals**: below `r` are the numbers behind it, up to the end of its block. -/
theorem above_iff (hn : n ≤ size w k) :
    Relation.TransGen (IsParent w k n) r x ↔ r < x ∧ x < n ∧ x < r + size w (place w k r).height := by
  constructor
  · intro h
    obtain ⟨hlt, hxn, hle⟩ := add_size_le_of_above hn h
    have hs := size_pos w (place w k x).height
    exact ⟨hlt, hxn, by omega⟩
  · rintro ⟨hrx, hlt, hend⟩
    induction x using Nat.strong_induction_on with
    | _ x ih =>
      have hpos : 0 < x := by omega
      have hp := place_parent_lt (hlt.trans_le hn) hpos
      have hstep : IsParent w k n (place w k x).parent x := ⟨hpos, hlt, rfl⟩
      rcases Nat.lt_trichotomy (place w k x).parent r with h | h | h
      · have := gap (hlt.trans_le hn) h hrx
        omega
      · rw [h] at hstep
        exact .single hstep
      · exact .tail (ih _ hp h (by omega) (by omega)) hstep

theorem card_children_le (hn : n ≤ size w k) (r : Nat) :
    ((Finset.range n).filter fun x => 0 < x ∧ (place w k x).parent = r).card ≤ w := by
  have hsub : (Finset.range n).filter (fun x => 0 < x ∧ (place w k x).parent = r) ⊆
      (Finset.range w).image fun j => r + 1 + j * size w ((place w k r).height - 1) := by
    intro x hx
    obtain ⟨hxn, hpos, rfl⟩ := Finset.mem_filter.1 hx
    obtain ⟨hh, -, j, hj, hxj⟩ := place_parent ((Finset.mem_range.1 hxn).trans_le hn) hpos
    refine Finset.mem_image.2 ⟨j, Finset.mem_range.2 hj, ?_⟩
    rw [hh, Nat.add_sub_cancel, ← hxj]
  calc _ ≤ _ := Finset.card_le_card hsub
    _ ≤ (Finset.range w).card := Finset.card_image_le
    _ = w := Finset.card_range w

end Slurmpp.FullTree
