/-
  Counting bits (`src/common/bitstring.c`).

  1. **One word** — `hweight` adds up the fields of a word, pairs of bits first and halves of the word
     last (`Lib/FieldSum`).

  2. **A string** — `bit_set_count` counts whole words as long as they lie in front of the end, and the
     bits behind them one by one; bits that are not valid are never counted.  The loop compares
     `bit + 32` with the size: with `2^31 - 32` valid bits or more, that sum leaves the range of
     `bitoff_t`, which is `none`.
-/
import Slurmpp.Common.Bitstring
import Slurmpp.Lib.FieldSum

namespace Slurmpp.Bitstring

open FieldSum List

variable {b : Bitstr} {n k m bit count : Nat}

/-- One line of `hweight`. -/
def addFields (s : Nat) (mask res : BitVec 32) : BitVec 32 := (res &&& mask) + ((res >>> s) &&& mask)

def hweight (w : BitVec 32) : BitVec 32 :=
  let res := addFields 1 0x55555555 w
  let res := addFields 2 0x33333333 res
  let res := addFields 4 0x0F0F0F0F res
  let res := addFields 8 0x00FF00FF res
  addFields 16 0x0000FFFF res

/-- The first loop of `bit_set_count`: the position and the count at its end. -/
def countWords (b : Bitstr) : Nat → Nat → Nat → Option (Nat × Nat)
  | 0, _, _ => none
  | n + 1, bit, count =>
    if bit + 32 ≥ 2 ^ 31 then none
    else if bit + 32 ≤ b.bits then countWords b n (bit + 32) (count + (hweight (word b bit)).toNat)
    else some (bit, count)

/-- The second loop, over `n` positions. -/
def countBits (b : Bitstr) : Nat → Nat → Nat → Nat
  | 0, _, count => count
  | n + 1, bit, count => countBits b n (bit + 1) (if bitTest b bit then count + 1 else count)

def bitSetCount (b : Bitstr) : Option Nat :=
  (countWords b (b.words.length + 1) 0 0).map fun r => countBits b (b.bits - r.1) r.1 r.2

/-! ## One word -/

theorem fieldSum_addFields (s k : Nat) (mask res : BitVec 32) (hs : 0 < s)
    (hmask : mask.toNat = evenMask s k) (hsize : 2 * s * k = 32) :
    fieldSum (2 * s) k (addFields s mask res).toNat = fieldSum s (2 * k) res.toNat := by
  have hlt := pairSum_lt hs k res.toNat
  rw [hsize] at hlt
  have hsum : (addFields s mask res).toNat = pairSum s k res.toNat := by
    rw [addFields, BitVec.toNat_add, BitVec.toNat_and, BitVec.toNat_and, BitVec.toNat_ushiftRight, hmask]
    exact Nat.mod_eq_of_lt hlt
  rw [hsum, fieldSum_pairSum hs]

theorem toNat_hweight (w : BitVec 32) : (hweight w).toNat = (range 32).countP (w.getLsbD ·) := by
  have hwhole : (hweight w).toNat = fieldSum 32 1 (hweight w).toNat := by
    rw [fieldSum, fieldSum, Nat.add_zero, Nat.mod_eq_of_lt (hweight w).isLt]
  calc (hweight w).toNat
      = fieldSum 32 1 (hweight w).toNat := hwhole
    _ = fieldSum 16 2 _ := fieldSum_addFields 16 1 _ _ (by decide) rfl rfl
    _ = fieldSum 8 4 _ := fieldSum_addFields 8 2 _ _ (by decide) rfl rfl
    _ = fieldSum 4 8 _ := fieldSum_addFields 4 4 _ _ (by decide) rfl rfl
    _ = fieldSum 2 16 _ := fieldSum_addFields 2 8 _ _ (by decide) rfl rfl
    _ = fieldSum 1 32 w.toNat := fieldSum_addFields 1 16 _ _ (by decide) rfl rfl
    _ = (range 32).countP (w.getLsbD ·) := fieldSum_one

/-! ## A string -/

/-- The number of set positions among the first `n`. -/
def setBelow (b : Bitstr) (n : Nat) : Nat := (range n).countP (bitTest b)

theorem setBelow_succ (b : Bitstr) (n : Nat) : setBelow b (n + 1) = setBelow b n + if bitTest b n then 1 else 0 := by
  rw [setBelow, range_succ, countP_append, ← setBelow, countP_singleton]

theorem setBelow_add : setBelow b (n + k) = setBelow b n + (range k).countP (fun i => bitTest b (n + i)) := by
  rw [setBelow, range_add, countP_append, ← setBelow, countP_map]
  rfl

theorem countBits_eq (b : Bitstr) (n bit : Nat) : countBits b n bit (setBelow b bit) = setBelow b (bit + n) := by
  induction n generalizing bit with
  | zero => rfl
  | succ n ih =>
    have hstep : (if bitTest b bit = true then setBelow b bit + 1 else setBelow b bit) = setBelow b (bit + 1) := by
      rw [setBelow_succ]
      split_ifs <;> rfl
    rw [countBits, hstep, ih, Nat.add_right_comm, Nat.add_assoc]

theorem setBelow_word : setBelow b (32 * k) + (hweight (word b (32 * k))).toNat = setBelow b (32 * k + 32) := by
  rw [setBelow_add, toNat_hweight]
  congr 1
  refine countP_congr fun i hi => ?_
  have hlt := mem_range.1 hi
  rw [bitTest_eq, word, word, show (32 * k + i) / 32 = 32 * k / 32 by omega, show (32 * k + i) % 32 = i by omega]

theorem countWords_eq (hsize : b.bits < 2 ^ 31 - 32) (hn : b.words.length < k + n) (hk : 32 * k ≤ b.bits) :
    ∃ bit, countWords b n (32 * k) (setBelow b (32 * k)) = some (bit, setBelow b bit) ∧ bit ≤ b.bits := by
  have hlen := b.length_words
  rw [dataWords] at hlen
  induction n generalizing k with
  | zero => omega
  | succ n ih =>
    rw [countWords, if_neg (by omega)]
    by_cases hle : 32 * k + 32 ≤ b.bits
    · rw [if_pos hle, setBelow_word]
      exact ih (k := k + 1) (by omega) (by omega)
    · rw [if_neg hle]
      exact ⟨_, rfl, hk⟩

theorem bitSetCount_eq (hsize : b.bits < 2 ^ 31 - 32) : bitSetCount b = some (setBelow b b.bits) := by
  obtain ⟨bit, hwords, hle⟩ := @countWords_eq b (b.words.length + 1) 0 hsize (by omega) (Nat.zero_le _)
  have hcount := countBits_eq b (b.bits - bit) bit
  rw [Nat.add_sub_cancel' hle] at hcount
  rw [bitSetCount, show countWords b (b.words.length + 1) 0 0 = some (bit, setBelow b bit) from hwords,
    Option.map_some, hcount]

/-- One more bit is set. -/
theorem setBelow_eq_add {b' : Bitstr} {i : Nat} (hi : bitTest b i = false) (hi' : bitTest b' i = true)
    (h : ∀ k, k ≠ i → bitTest b' k = bitTest b k) :
    setBelow b' k = setBelow b k + if i < k then 1 else 0 := by
  induction k with
  | zero => rfl
  | succ k ih =>
    rw [setBelow_succ, setBelow_succ, ih]
    by_cases hk : k = i
    · subst hk
      simp [hi, hi']
    · have hlt : i < k + 1 ↔ i < k := by omega
      rw [h k hk]
      simp only [hlt]
      omega

theorem setBelow_bitSet {b' : Bitstr} {i : Nat} (h : bitSet b i = some b') (hi : bitTest b i = false) (k : Nat) :
    setBelow b' k = setBelow b k + if i < k then 1 else 0 := by
  obtain ⟨-, -, htest⟩ := bitSet_eq_some h
  exact setBelow_eq_add hi (by simp [htest]) (fun j hj => by simp [htest, hj])

theorem setBelow_bitClear {b' : Bitstr} {i : Nat} (h : bitClear b i = some b') (hlt : i < b.bits)
    (hi : bitTest b i = true) (k : Nat) : setBelow b' k + (if i < k then 1 else 0) = setBelow b k := by
  obtain ⟨b'', h', -, htest⟩ := bitClear_eq hlt
  cases h'.symm.trans h
  exact (setBelow_eq_add (by simp [htest]) hi (fun j hj => by simp [htest, hj])).symm

theorem setBelow_or {b1 b2 b3 : Bitstr} (hor : ∀ i, bitTest b3 i = (bitTest b1 i || bitTest b2 i))
    (hdis : ∀ i, bitTest b2 i = true → bitTest b1 i = false) :
    setBelow b3 k = setBelow b1 k + setBelow b2 k := by
  induction k with
  | zero => rfl
  | succ k ih =>
    rw [setBelow_succ, setBelow_succ, setBelow_succ, ih, hor]
    cases h1 : bitTest b1 k <;> cases h2 : bitTest b2 k <;> simp_all <;> omega

theorem countWords_eq_none (hsize : 2 ^ 31 - 32 ≤ b.bits) (n count : Nat) (hk : 32 * k ≤ 2 ^ 31 - 32) :
    countWords b n (32 * k) count = none := by
  induction n generalizing k count with
  | zero => rfl
  | succ n ih =>
    rw [countWords]
    split_ifs with hover hle
    · rfl
    · exact ih (k := k + 1) _ (by omega)
    · omega

theorem bits_lt_of_bitSetCount {n : Nat} (h : bitSetCount b = some n) : b.bits < 2 ^ 31 - 32 := by
  by_contra hlarge
  have hnone : countWords b (b.words.length + 1) 0 0 = none :=
    countWords_eq_none (k := 0) (Nat.le_of_not_lt hlarge) _ _ (Nat.zero_le _)
  rw [bitSetCount, hnone] at h
  cases h

theorem setBelow_le (b : Bitstr) (n : Nat) : setBelow b n ≤ n :=
  countP_le_length.trans_eq length_range

def bitClearCount (b : Bitstr) : Option Nat := (bitSetCount b).map (b.bits - ·)

end Slurmpp.Bitstring
