/-
  The reverse tree of a job step (`src/slurmd/slurmd/reverse_tree_math.c`).  Each `slurmstepd` computes from its rank who
  its parent is, how many ranks are below it, and its depth; that the answers of all ranks fit together is the point.  An
  operation that leaves the range of `int` makes the outcome `overflow`, and a loop that runs out of fuel `hung`.

  1. **The tree** — `search_tree` looks the rank up in the full tree of the least height that has room for all nodes,
     numbered in preorder (`FullTree.place`, `searchTree_eq`).
  2. **The cut** — to the first `num_nodes` numbers.  Subtrees are intervals, so the cut only shortens the interval of a
     rank: this is the clamp at the end of `reverse_tree_info`.
-/
import Mathlib
import Slurmpp.Lib.FullTree

namespace Slurmpp.ReverseTree

open FullTree

/-! ## Arithmetic of `int` -/

/-- The outcome of a computation with `int` values. -/
inductive Outcome (α : Type) where
  | ok (a : α)
  | overflow
  | hung
deriving DecidableEq

namespace Outcome

/-- Goes on with the value, if there is one. -/
protected def bind {α β : Type} : Outcome α → (α → Outcome β) → Outcome β
  | ok a, f => f a
  | overflow, _ => overflow
  | hung, _ => hung

instance : Monad Outcome where
  pure := ok
  bind := Outcome.bind

@[simp] theorem ok_bind {α β : Type} (a : α) (f : α → Outcome β) : (ok a >>= f) = f a := rfl

@[simp] theorem overflow_bind {α β : Type} (f : α → Outcome β) : (overflow >>= f) = overflow := rfl

end Outcome

/-- The result of an arithmetic operation, if it is an `int`. -/
def int (z : Int) : Outcome Int := if -2 ^ 31 ≤ z ∧ z < 2 ^ 31 then .ok z else .overflow

section

variable {α : Type} {z : Int} {f : Int → Outcome α}

theorem int_ok (h1 : -2 ^ 31 ≤ z) (h2 : z < 2 ^ 31) : int z = .ok z := if_pos ⟨h1, h2⟩

theorem int_bind (h1 : -2 ^ 31 ≤ z) (h2 : z < 2 ^ 31) : (int z >>= f) = f z := by
  rw [int_ok h1 h2, Outcome.ok_bind]

theorem int_lt (h : (int z >>= f) ≠ .overflow) : z < 2 ^ 31 := by
  by_contra hz
  rw [int, if_neg (by omega)] at h
  exact h rfl

end

/-! ## The source -/

/-- The loop of `int_pow`: `n` more multiplications. -/
def powLoop (num : Int) : Nat → Int → Outcome Int
  | 0, res => .ok res
  | n + 1, res => do powLoop num n (← int (res * num))

def intPow (num : Int) (power : Nat) : Outcome Int :=
  if power = 0 then .ok 1
  else if power = 1 then .ok num
  else powLoop num (power - 1) num

def geometricSeries (width : Int) (depth : Nat) : Outcome Int := do
  let pow ← intPow width (depth + 1)
  let num ← int (1 - pow)
  let den ← int (1 - width)
  int (num.tdiv den)

/-- The loop of `dep`: `i` and `x` are the loop's variables. -/
def depLoop (total width : Int) : Nat → Nat → Int → Outcome Nat
  | 0, _, _ => .hung
  | fuel + 1, i, x => do
    let last ← int (total - 1)
    if x < last then
      let pow ← intPow width i
      let x ← int (x + pow)
      depLoop total width fuel (i + 1) x
    else .ok (i - 1)

def dep (total width : Int) : Outcome Nat := depLoop total width total.toNat 1 0

/-- What `search_tree` writes through its pointers. -/
structure Found where
  parentId : Int
  nextMaxChildren : Int
  depth : Int
deriving DecidableEq

/-- The `for` loop of `search_tree`, with `n` turns left; `search` is the recursive call. -/
def searchLoop (search : Int → Int → Int → Outcome Found) (id node nextChildren depth : Int) :
    Nat → Int → Outcome Found
  | 0, _ => .ok ⟨-1, -1, depth⟩
  | n + 1, current => do
    let next ← int (current + nextChildren)
    let next ← int (next + 1)
    if id = next then .ok ⟨node, nextChildren, depth⟩
    else if id > current ∧ id < next then search current nextChildren depth
    else searchLoop search id node nextChildren depth n next

def searchTree (id width : Int) : Nat → Int → Int → Int → Outcome Found
  | 0, _, _, _ => .hung
  | fuel + 1, node, maxChildren, depth => do
    let depth ← int (depth + 1)
    let current ← int (node + 1)
    let nextChildren ← int (maxChildren.tdiv width - 1)
    if id = current then .ok ⟨node, nextChildren, depth⟩
    else searchLoop (searchTree id width fuel) id node nextChildren depth width.toNat current

/-- What `reverse_tree_info` writes through its pointers. -/
structure Info where
  parent : Int
  numChildren : Int
  depth : Int
  maxDepth : Int
deriving DecidableEq

def reverseTreeInfo (rank numNodes width : Int) : Outcome Info :=
  -- sanity check
  if rank ≥ numNodes then .ok ⟨-1, -1, -1, -1⟩
  else do
    let maxDepth ← dep numNodes width
    if rank = 0 then
      let children ← int (numNodes - 1)
      .ok ⟨-1, children, 0, maxDepth⟩
    else
      let maxChildren ← geometricSeries width maxDepth
      let found ← searchTree rank width rank.toNat 0 maxChildren 0
      let last ← int (rank + found.nextMaxChildren)
      if last ≥ numNodes then
        let rest ← int (numNodes - rank)
        let children ← int (rest - 1)
        .ok ⟨found.parentId, children, found.depth, maxDepth⟩
      else .ok ⟨found.parentId, found.nextMaxChildren, found.depth, maxDepth⟩

variable {w n k fuel : Nat}

/-! ## Powers, series and the depth -/

theorem powLoop_eq (hw : 2 ≤ w) {p : Nat} (hp : w ^ p < 2 ^ 31) (m : Nat) :
    powLoop w m ((w ^ p : Nat) : Int) =
      if w ^ (p + m) < 2 ^ 31 then .ok ((w ^ (p + m) : Nat) : Int) else .overflow := by
  induction m generalizing p with
  | zero => rw [powLoop, Nat.add_zero, if_pos hp]
  | succ m ih =>
    have hmul : ((w ^ p : Nat) : Int) * (w : Int) = ((w ^ (p + 1) : Nat) : Int) := by
      rw [Nat.pow_succ, Nat.cast_mul]
    rw [powLoop, hmul, show p + (m + 1) = p + 1 + m by omega]
    by_cases hlt : w ^ (p + 1) < 2 ^ 31
    · rw [int_ok (by omega) (by exact_mod_cast hlt), Outcome.ok_bind]
      exact ih hlt
    · -- once outside, the power stays outside
      have hmono : w ^ (p + 1) ≤ w ^ (p + 1 + m) := Nat.pow_le_pow_right (by omega) (by omega)
      rw [int, if_neg (by omega), if_neg (by omega)]
      rfl

/-- **`int_pow`** for the powers the code asks for. -/
theorem intPow_eq (hw : 2 ≤ w) (hint : w < 2 ^ 31) {p : Nat} :
    intPow w p = if w ^ p < 2 ^ 31 then .ok ((w ^ p : Nat) : Int) else .overflow := by
  rcases p with _ | _ | p
  · rw [intPow, if_pos rfl, if_pos (by norm_num)]
    simp
  · rw [intPow, if_neg (by omega), if_pos rfl, if_pos (by simpa using hint)]
    simp
  · have hone : w ^ 1 < 2 ^ 31 := by simpa using hint
    have h := powLoop_eq hw hone (p + 1)
    rw [Nat.pow_one, show 1 + (p + 1) = p + 1 + 1 by omega] at h
    rw [intPow, if_neg (by omega), if_neg (by omega)]
    exact h

theorem geometricSeries_eq (hw : 2 ≤ w) (hint : w < 2 ^ 31) (k : Nat) :
    geometricSeries w k = if w ^ (k + 1) < 2 ^ 31 then .ok (size w k : Int) else .overflow := by
  rw [geometricSeries, intPow_eq hw hint]
  by_cases hlt : w ^ (k + 1) < 2 ^ 31
  · have hsum := size_mul_pred (by omega : 0 < w) k
    have hle : size w k ≤ (w - 1) * size w k := Nat.le_mul_of_pos_left _ (by omega)
    -- both differences are negative and the division is exact
    have hdiv : (1 - ((w ^ (k + 1) : Nat) : Int)) = (1 - (w : Int)) * (size w k : Int) := by
      rw [← hsum]
      push_cast [Nat.cast_sub (by omega : 1 ≤ w)]
      ring
    rw [if_pos hlt, if_pos hlt, Outcome.ok_bind, int_bind (by omega) (by omega), int_bind (by omega) (by omega), hdiv, Int.mul_tdiv_cancel_left _ (by omega),
      int_ok (by omega) (by omega)]
  · rw [if_neg hlt, if_neg hlt, Outcome.overflow_bind]

theorem depLoop_eq (hw : 2 ≤ w) (hint : w < 2 ^ 31) (hn : 0 < n) {j : Nat} (hpos : 0 < fuel)
    (hfuel : n < size w j + fuel) (hno : depLoop n w fuel (j + 1) (size w j - 1) ≠ .overflow) :
    ∃ d, depLoop n w fuel (j + 1) (size w j - 1) = .ok d ∧ n ≤ size w d := by
  induction fuel generalizing j with
  | zero => omega
  | succ fuel ih =>
    rw [depLoop] at hno ⊢
    have hlast := int_lt hno
    rw [int_bind (by omega) hlast] at hno ⊢
    by_cases hlt : (size w j : Int) - 1 < n - 1
    · rw [if_pos hlt, intPow_eq hw hint] at hno ⊢
      have hlevel := size_succ_eq_add_pow w j
      by_cases hpow : w ^ (j + 1) < 2 ^ 31
      · rw [if_pos hpow, Outcome.ok_bind] at hno ⊢
        rw [show (size w j : Int) - 1 + ((w ^ (j + 1) : Nat) : Int) = (size w (j + 1) : Int) - 1 by
          rw [hlevel]; push_cast; ring] at hno ⊢
        have hsize := int_lt hno
        rw [int_bind (by omega) hsize] at hno ⊢
        have := size_lt_succ (by omega : 0 < w) j
        exact ih (by omega) (by omega) hno
      · rw [if_neg hpow] at hno
        exact absurd rfl hno
    · rw [if_neg hlt]
      exact ⟨j, rfl, by omega⟩

theorem dep_eq (hw : 2 ≤ w) (hint : w < 2 ^ 31) (hn : 0 < n) (hno : dep n w ≠ .overflow) :
    ∃ d, dep n w = .ok d ∧ n ≤ size w d := by
  have hloop := @depLoop_eq w n n hw hint hn 0 hn (by rw [size]; omega)
  exact hloop hno

/-! ## The search -/

/-- **The walk over the blocks.**  `id` is number `y` of block `q` below `node`; the loop stands at the
    start of block `a`, and the start of the first block has been ruled out. -/
theorem searchLoop_eq (search : Int → Int → Int → Outcome Found) (depth : Int) {node q y : Nat}
    (hq : q < w) (hy : y < size w k) (hfit : node + size w (k + 1) < 2 ^ 31) {a m : Nat} (ha : a ≤ q)
    (hm : a + m = w) (hnot : y = 0 → a ≠ q) :
    searchLoop search ((node + (1 + q * size w k + y) : Nat) : Int) node ((size w k : Int) - 1) depth m
        ((node + 1 + a * size w k : Nat) : Int) =
      if y = 0 then .ok ⟨node, (size w k : Int) - 1, depth⟩
      else search ((node + 1 + q * size w k : Nat) : Int) ((size w k : Int) - 1) depth := by
  induction m generalizing a with
  | zero => omega
  | succ m ih =>
    have hs := size_pos w k
    -- the next block starts inside of the tree or right behind it
    have hnext : (a + 1) * size w k ≤ w * size w k := Nat.mul_le_mul_right _ (by omega)
    have hsize : size w (k + 1) = 1 + w * size w k := rfl
    have hmul : (a + 1) * size w k = a * size w k + size w k := by ring
    rw [searchLoop, int_bind (by omega) (by omega), int_bind (by omega) (by omega)]
    rcases Nat.lt_or_eq_of_le ha with hlt | rfl
    · have hle : (a + 1) * size w k ≤ q * size w k := Nat.mul_le_mul_right _ hlt
      by_cases hlast : y = 0 ∧ a + 1 = q
      · obtain ⟨hy0, hqa⟩ := hlast
        have heq : q * size w k = (a + 1) * size w k := by rw [hqa]
        rw [if_pos (by omega), if_pos hy0]
      · have hne : ¬(y = 0 ∧ (a + 1) * size w k = q * size w k) := by
          rintro ⟨h0, heq⟩
          exact hlast ⟨h0, Nat.eq_of_mul_eq_mul_right hs heq⟩
        rw [if_neg (by omega), if_neg (by omega)]
        have hcur : ((node + 1 + a * size w k : Nat) : Int) + ((size w k : Int) - 1) + 1 =
            ((node + 1 + (a + 1) * size w k : Nat) : Int) := by
          rw [hmul]
          push_cast
          ring
        rw [hcur]
        exact ih (by omega) (by omega) fun h0 h => hlast ⟨h0, h⟩
    · have hy0 : y ≠ 0 := fun h => hnot h rfl
      rw [if_neg (by omega), if_pos (by omega), if_neg hy0]

theorem searchTree_succ (hw : 2 ≤ w) {node q y depth : Nat} {maxChildren : Int}
    (hmax : maxChildren.tdiv w = size w k) (hq : q < w) (hy : y < size w k)
    (hfit : node + size w (k + 1) < 2 ^ 31) (hdepth : depth + 1 < 2 ^ 31) :
    searchTree ((node + (1 + q * size w k + y) : Nat) : Int) w (fuel + 1) node maxChildren depth =
      if y = 0 then .ok ⟨node, (size w k : Int) - 1, ((depth + 1 : Nat) : Int)⟩
      else searchTree ((node + (1 + q * size w k + y) : Nat) : Int) w fuel
        ((node + 1 + q * size w k : Nat) : Int) ((size w k : Int) - 1) ((depth + 1 : Nat) : Int) := by
  have hs := size_pos w k
  have hsize : size w (k + 1) = 1 + w * size w k := rfl
  have hle : 1 * size w k ≤ w * size w k := Nat.mul_le_mul_right _ (by omega)
  rw [searchTree, int_bind (by omega) (by omega), int_bind (by omega) (by omega), hmax, int_bind (by omega) (by omega), Int.toNat_natCast]
  by_cases hfirst : y = 0 ∧ q = 0
  · obtain ⟨rfl, rfl⟩ := hfirst
    rw [if_pos (by omega), if_pos rfl]
    rfl
  · have hne : ¬(y = 0 ∧ q * size w k = 0) := by
      rintro ⟨h0, hmul⟩
      exact hfirst ⟨h0, (Nat.mul_eq_zero.1 hmul).resolve_right (by omega)⟩
    rw [if_neg (by omega)]
    have hloop := searchLoop_eq (searchTree ((node + (1 + q * size w k + y) : Nat) : Int) w fuel)
      ((depth + 1 : Nat) : Int) hq hy hfit (Nat.zero_le q) (Nat.zero_add w) fun h0 h => hfirst ⟨h0, h.symm⟩
    rw [Nat.zero_mul] at hloop
    exact hloop

/-- **The search** finds the place of the rank in the full tree below `node`. -/
theorem searchTree_eq (hw : 2 ≤ w) {node id : Nat} {maxChildren : Int} {depth : Nat}
    (hmax : maxChildren.tdiv w = size w k) (hid : 0 < id) (hlt : id < size w (k + 1))
    (hfit : node + size w (k + 1) < 2 ^ 31) (hdepth : depth + k + 1 < 2 ^ 31) (hfuel : id ≤ fuel) :
    searchTree ((node + id : Nat) : Int) w fuel node maxChildren depth =
      .ok ⟨((node + (place w (k + 1) id).parent : Nat) : Int),
        (size w (place w (k + 1) id).height : Int) - 1, ((depth + (place w (k + 1) id).depth : Nat) : Int)⟩ := by
  induction k generalizing fuel node id maxChildren depth with
  | zero =>
    obtain ⟨fuel, rfl⟩ : ∃ f, fuel = f + 1 := ⟨fuel - 1, by omega⟩
    obtain ⟨q, y, hq, hy, rfl⟩ := exists_block hid hlt
    obtain rfl : y = 0 := by
      rw [size] at hy
      omega
    rw [searchTree_succ hw hmax hq hy hfit (by omega), place_block hy, if_pos rfl]
    simp
  | succ k ih =>
    obtain ⟨fuel, rfl⟩ : ∃ f, fuel = f + 1 := ⟨fuel - 1, by omega⟩
    obtain ⟨q, y, hq, hy, rfl⟩ := exists_block hid hlt
    rw [searchTree_succ hw hmax hq hy hfit (by omega), place_block hy]
    rcases Nat.eq_zero_or_pos y with rfl | hy0
    · simp
    · have hend := block_le hq (le_refl (size w (k + 1)))
      -- the room below the root of a block is again a multiple of the width
      have hroom : ((size w (k + 1) : Int) - 1).tdiv w = size w k := by
        rw [size, show ((1 + w * size w k : Nat) : Int) - 1 = (w : Int) * (size w k : Int) by
          push_cast; ring, Int.mul_tdiv_cancel_left _ (by omega)]
      have hrec := @ih fuel (node + 1 + q * size w (k + 1)) y _ (depth + 1) hroom hy0 hy (by omega)
        (by omega) (by omega)
      rw [if_neg (by omega), if_neg (by omega),
        show node + (1 + q * size w (k + 1) + y) = node + 1 + q * size w (k + 1) + y by omega, hrec]
      dsimp only
      congr 2
      · omega
      · omega

/-! ## The whole tree -/

/-- The answer for rank `r`: its place in the full tree of height `d`, cut to `n` numbers. -/
def answer (w d n r : Nat) : Info where
  parent := if r = 0 then -1 else ((place w d r).parent : Nat)
  numChildren := ((min (r + size w (place w d r).height) n - r - 1 : Nat) : Int)
  depth := (place w d r).depth
  maxDepth := d

theorem reverseTreeInfo_zero (hn : 0 < n) {d : Nat} (hdep : dep n w = .ok d) (hroom : n ≤ size w d)
    (hno : reverseTreeInfo 0 n w ≠ .overflow) : reverseTreeInfo 0 n w = .ok (answer w d n 0) := by
  rw [reverseTreeInfo, if_neg (by omega), hdep, Outcome.ok_bind, if_pos rfl] at hno ⊢
  rw [int_bind (by omega) (int_lt hno)]
  simp only [answer, place_zero, if_true]
  congr 2
  omega

theorem reverseTreeInfo_pos (hw : 2 ≤ w) (hint : w < 2 ^ 31) {d r : Nat} (hdep : dep n w = .ok d)
    (hroom : n ≤ size w d) (hpos : 0 < r) (hr : r < n) (hno : reverseTreeInfo r n w ≠ .overflow) :
    reverseTreeInfo r n w = .ok (answer w d n r) := by
  rw [reverseTreeInfo, if_neg (by omega), hdep, Outcome.ok_bind, if_neg (by omega),
    geometricSeries_eq hw hint] at hno ⊢
  -- the only operation that can overflow is the power in `geometric_series`
  have hpow : w ^ (d + 1) < 2 ^ 31 := by
    by_contra h
    rw [if_neg h] at hno
    exact hno rfl
  obtain ⟨k, rfl⟩ : ∃ k, d = k + 1 := by
    refine ⟨d - 1, ?_⟩
    rcases Nat.eq_zero_or_pos d with rfl | h
    · rw [size] at hroom
      omega
    · omega
  have hsum := size_mul_pred (by omega : 0 < w) (k + 1)
  have hle : 1 * size w (k + 1) ≤ (w - 1) * size w (k + 1) := Nat.mul_le_mul_right _ (by omega)
  have hdiv : ((size w (k + 1) : Nat) : Int).tdiv w = size w k := by
    rw [← Int.ofNat_tdiv, size, Nat.add_mul_div_left _ _ (by omega), Nat.div_eq_of_lt (by omega), Nat.zero_add]
  have hheight := lt_size (by omega : 0 < w) (k + 1)
  have hsearch := @searchTree_eq w k r hw 0 r _ 0 hdiv hpos (hr.trans_le hroom) (by omega) (by omega) (le_refl r)
  rw [Nat.zero_add, Nat.zero_add, Nat.zero_add, Nat.cast_zero] at hsearch
  -- the block of the rank lies in the full tree, so its end is an `int`
  have hend := add_size_place_le (hr.trans_le hroom)
  have hs := size_pos w (place w (k + 1) r).height
  rw [if_pos hpow, Outcome.ok_bind, Int.toNat_natCast, hsearch, Outcome.ok_bind]
  dsimp only
  rw [int_bind (by omega) (by omega), answer, if_neg hpos.ne']
  by_cases hcut : (r : Int) + ((size w (place w (k + 1) r).height : Int) - 1) ≥ n
  · rw [if_pos hcut, int_bind (by omega) (by omega), int_bind (by omega) (by omega)]
    congr 2
    omega
  · rw [if_neg hcut]
    congr 2
    omega

/-- `p` is the parent of `x` among the ranks below `n`, by the answers `info`. -/
def ParentOf (info : Nat → Info) (n p x : Nat) : Prop := x < n ∧ (info x).parent = p

theorem parentOf_answer {d p x : Nat} : ParentOf (answer w d n) n p x ↔ IsParent w d n p x := by
  rcases Nat.eq_zero_or_pos x with rfl | hpos
  · constructor
    · rintro ⟨-, h⟩
      simp only [answer, if_true] at h
      omega
    · rintro ⟨h, -⟩
      omega
  · have hparent : (answer w d n x).parent = ((place w d x).parent : Nat) := by
      rw [answer, if_neg (by omega)]
    rw [ParentOf, hparent, IsParent, Nat.cast_inj]
    exact ⟨fun h => ⟨hpos, h⟩, fun h => h.2⟩

theorem reverseTreeInfo_eq (hw : 2 ≤ w) (hint : w < 2 ^ 31) (hn : 1 ≤ n)
    (hno : ∀ r < n, reverseTreeInfo r n w ≠ .overflow) :
    ∃ d, n ≤ size w d ∧ ∀ r < n, reverseTreeInfo r n w = .ok (answer w d n r) := by
  obtain ⟨d, hdep, hroom⟩ : ∃ d, dep n w = .ok d ∧ n ≤ size w d := by
    refine dep_eq hw hint hn fun h => hno 0 hn ?_
    rw [reverseTreeInfo, Nat.cast_zero, if_neg (by omega), h, Outcome.overflow_bind]
  refine ⟨d, hroom, fun r hr => ?_⟩
  rcases Nat.eq_zero_or_pos r with rfl | hpos
  · exact reverseTreeInfo_zero hn hdep hroom (hno 0 hn)
  · exact reverseTreeInfo_pos hw hint hdep hroom hpos hr (hno r hr)

/-- **The reverse tree is a tree.**  When no rank's arithmetic overflows, every rank gets an answer, and
    the answers fit together: rank 0 is the root, parents come before their children and are one
    level above them, the ranks below `r` are exactly the `numChildren` ranks behind it, no rank has
    more than `w` children, and none is deeper than `maxDepth`. -/
theorem reverse_tree_is_tree (hw : 2 ≤ w) (hint : w < 2 ^ 31) (hn : 1 ≤ n)
    (hno : ∀ r < n, reverseTreeInfo r n w ≠ .overflow) :
    ∃ info : Nat → Info,
      (∀ r < n, reverseTreeInfo r n w = .ok (info r)) ∧
      (info 0).parent = -1 ∧
      (∀ r, 0 < r → r < n → ∃ p, p < r ∧ (info r).parent = p ∧ (info r).depth = (info p).depth + 1) ∧
      (∀ r < n, ∀ x, Relation.TransGen (ParentOf info n) r x ↔
        (r : Int) + 1 ≤ x ∧ (x : Int) ≤ r + (info r).numChildren) ∧
      (∀ r < n, ((Finset.range n).filter fun x => (info x).parent = r).card ≤ w) ∧
      ∀ r < n, (info r).depth ≤ (info r).maxDepth := by
  obtain ⟨d, hroom, hinfo⟩ := reverseTreeInfo_eq hw hint hn hno
  refine ⟨answer w d n, hinfo, rfl, fun r hpos hr => ?_, fun r hr x => ?_, fun r hr => ?_, fun r hr => ?_⟩
  · obtain ⟨-, hdepth, -⟩ := place_parent (hr.trans_le hroom) hpos
    refine ⟨(place w d r).parent, place_parent_lt (hr.trans_le hroom) hpos, ?_, ?_⟩
    · rw [answer, if_neg hpos.ne']
    · rw [answer, answer, hdepth]
      push_cast
      rfl
  · have hrel : ParentOf (answer w d n) n = IsParent w d n := by
      funext p x
      exact propext parentOf_answer
    rw [hrel, above_iff hroom, answer]
    dsimp only
    omega
  · refine le_trans (Finset.card_le_card fun x hx => ?_) (card_children_le hroom r)
    obtain ⟨hx, hparent⟩ := Finset.mem_filter.1 hx
    obtain ⟨hpos, -, hp⟩ := parentOf_answer.1 ⟨Finset.mem_range.1 hx, hparent⟩
    exact Finset.mem_filter.2 ⟨hx, hpos, hp⟩
  · have := place_height_add_depth (hr.trans_le hroom)
    rw [answer]
    dsimp only
    omega

/-- Eight nodes, two children each. -/
theorem reverse_tree_is_tree_eight : ∃ info : Nat → Info,
    (∀ r : Nat, r < 8 → reverseTreeInfo r 8 2 = .ok (info r)) ∧
      (∀ r : Nat, r < 8 → ∀ x, Relation.TransGen (ParentOf info 8) r x ↔
        (r : Int) + 1 ≤ x ∧ (x : Int) ≤ r + (info r).numChildren) := by
  obtain ⟨info, hinfo, -, -, hbelow, -⟩ := reverse_tree_is_tree (w := 2) (n := 8) (by decide) (by decide)
    (by decide) (by decide)
  exact ⟨info, hinfo, hbelow⟩

end Slurmpp.ReverseTree
