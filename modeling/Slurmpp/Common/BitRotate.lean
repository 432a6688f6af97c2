/-
  Rotating a bit string (`src/common/bitstring.c`).

  1. **The program** — `bit_rotate_copy` brings the distance into `0 .. nbits - 1` and copies the string in two
     stretches: what stays in front of the end of the new string, and then, from position 0 on, what wraps.
  2. **One stretch** — `copyBits_eq` says what a copied stretch holds.
  3. **Positions** — bit `i` goes to `(i + n) mod nbits` (`bitRotateCopy_eq`), so distances add up.
-/
import Slurmpp.Common.Bitstring

namespace Slurmpp.Bitstring

open List Option

variable {b : Bitstr} {nbits : Nat} {n : Int}

/-- `for (..; bit++, dst++) if (bit_test(b1, bit)) bit_set(new, dst);` over `k` positions. -/
def copyBits (b : Bitstr) : Nat → Nat → Nat → Bitstr → Option Bitstr
  | 0, _, _, new => some new
  | k + 1, bit, dst, new =>
    if bitTest b bit then (bitSet new dst).bind (copyBits b k (bit + 1) (dst + 1))
    else copyBits b k (bit + 1) (dst + 1) new

/-- The distance as one positive rotation: `n % nbits`, plus `nbits` when that is negative. -/
def distance (n : Int) (nbits : Nat) : Nat :=
  if n.tmod nbits < 0 then (n.tmod nbits + nbits).toNat else (n.tmod nbits).toNat

def bitRotateCopy (b : Bitstr) (n : Int) (nbits : Nat) : Option Bitstr :=
  -- `n % nbits` divides by zero for an empty string
  if b.bits ≤ nbits ∧ nbits ≠ 0 then
    let deltasize := nbits - b.bits
    let n := distance n nbits
    let wrapbits := if n > deltasize then n - deltasize else 0
    (bitAlloc nbits).bind fun new => (bitNclear new 0 (nbits - 1)).bind fun new =>
      (copyBits b (b.bits - wrapbits) 0 n new).bind (copyBits b wrapbits (b.bits - wrapbits) 0)
  else none

/-- `bit_copybits`: `memcpy` of the data words. -/
def bitCopybits (dest src : Bitstr) : Option Bitstr :=
  if h : dest.bits = src.bits then
    some { dest with words := src.words, length_words := by rw [src.length_words, h] }
  else none

def bitRotate (b : Bitstr) (n : Int) : Option Bitstr :=
  if n = 0 then some b else (bitRotateCopy b n b.bits).bind (bitCopybits b)

/-! ## One stretch -/

theorem copyBits_eq (b : Bitstr) (k bit dst : Nat) (new : Bitstr) (h : dst + k ≤ new.bits) :
    ∃ r, copyBits b k bit dst new = some r ∧ r.bits = new.bits ∧ ∀ j, bitTest r j = true ↔
      bitTest new j = true ∨ ∃ i < k, bitTest b (bit + i) = true ∧ j = dst + i := by
  induction k generalizing bit dst new with
  | zero => exact ⟨new, rfl, rfl, fun j => by simp⟩
  | succ k ih =>
    rw [copyBits]
    -- the first position, and then the rest of the stretch
    simp only [Nat.exists_lt_succ_left, Nat.add_zero, ← Nat.add_assoc, Nat.add_right_comm _ _ 1]
    cases hb : bitTest b bit with
    | false =>
      obtain ⟨r, hr, hbits, htest⟩ := ih (bit + 1) (dst + 1) new (by omega)
      exact ⟨r, hr, hbits, fun j => by simp [htest]⟩
    | true =>
      obtain ⟨hlt, hbits', htest'⟩ := bitSet_eq_some (show bitSet new dst = some _ from if_pos (by omega))
      obtain ⟨r, hr, hbits, htest⟩ := ih (bit + 1) (dst + 1) (put true new dst) (by omega)
      refine ⟨r, ?_, hbits.trans hbits', fun j => ?_⟩
      · rw [if_pos rfl, bitSet, if_pos hlt]
        exact hr
      · rw [htest, htest', Bool.or_eq_true, decide_eq_true_eq]
        tauto

/-! ## Positions -/

theorem distance_eq (n : Int) (hpos : 0 < nbits) : (distance n nbits : Int) = n % nbits := by
  have hnonneg := Int.emod_nonneg n (show (nbits : Int) ≠ 0 by omega)
  have hlt := Int.emod_lt_of_pos n (show (0 : Int) < nbits by omega)
  have htmod := @Int.tmod_eq_emod n nbits
  simp only [Int.dvd_iff_emod_eq_zero, Int.natAbs_natCast] at htmod
  rw [distance]
  split_ifs at htmod ⊢ <;> omega

/-- `r` has the bits of `b`, each moved by `n` positions around the end of `r`. -/
structure Rotated (b : Bitstr) (n : Int) (r : Bitstr) : Prop where
  test : ∀ j < r.bits, bitTest r j = true ↔
    ∃ i < b.bits, bitTest b i = true ∧ (j : Int) = (i + n) % r.bits

theorem bitRotateCopy_eq (b : Bitstr) (n : Int) (hle : b.bits ≤ nbits) (hpos : 0 < nbits)
    (hlt : nbits < 2 ^ 31) : ∃ r, bitRotateCopy b n nbits = some r ∧ r.bits = nbits ∧ Rotated b n r := by
  have hd := distance_eq n hpos
  have hdlt : distance n nbits < nbits := by
    have := Int.emod_lt_of_pos n (show (0 : Int) < nbits by omega)
    omega
  have hmod : ∀ i j : Nat, (j : Int) = (i + n) % nbits ↔ j = (i + distance n nbits) % nbits := by
    intro i j
    rw [← Int.add_emod_emod, ← hd]
    norm_cast
  obtain ⟨new, hnew⟩ : ∃ new, bitAlloc nbits = some new := ⟨_, dif_pos hlt⟩
  have hbits := bits_bitAlloc hnew
  obtain ⟨clear, hclear, hfill⟩ := nfill_eq false (show 0 < new.bits by omega) (show nbits - 1 < new.bits by omega)
  have hnone : ∀ j, bitTest clear j = false := fun j => by
    rw [hfill.test, bitTest_bitAlloc hnew, ite_self]
  have hclearBits := hfill.bits
  generalize hw : distance n nbits - (nbits - b.bits) = w at *
  obtain ⟨front, hfront, hfrontBits, hfrontTest⟩ :=
    copyBits_eq b (b.bits - w) 0 (distance n nbits) clear (by omega)
  obtain ⟨r, hr, hrbits, htest⟩ := copyBits_eq b w (b.bits - w) 0 front (by omega)
  have hsize : r.bits = nbits := by omega
  refine ⟨r, ?_, hsize, ⟨fun j hj => ?_⟩⟩
  · have hwrap : (if distance n nbits > nbits - b.bits then distance n nbits - (nbits - b.bits) else 0) = w := by
      split_ifs <;> omega
    rw [bitRotateCopy, if_pos ⟨hle, by omega⟩]
    simp only [hwrap, hnew, bitNclear, hclear, hfront, hr, Option.bind_some]
  · rw [htest, hfrontTest, hnone, hsize]
    simp only [hmod, Bool.false_eq_true, false_or]
    constructor
    · rintro (⟨i, hi, hset, rfl⟩ | ⟨i, hi, hset, rfl⟩)
      · exact ⟨0 + i, by omega, hset, by rw [Nat.mod_eq_of_lt (by omega)]; omega⟩
      · refine ⟨_, by omega, hset, ?_⟩
        rw [show b.bits - w + i + distance n nbits = nbits + i by omega, Nat.add_mod_left,
          Nat.mod_eq_of_lt (by omega), Nat.zero_add]
    · rintro ⟨i, hi, hset, rfl⟩
      by_cases hfit : i < b.bits - w
      · refine .inl ⟨i, hfit, by rwa [Nat.zero_add], ?_⟩
        rw [Nat.mod_eq_of_lt (by omega), Nat.add_comm]
      · refine .inr ⟨i - (b.bits - w), by omega, by rwa [Nat.add_sub_cancel' (by omega)], ?_⟩
        rw [show i + distance n nbits = nbits + (i - (b.bits - w)) by omega, Nat.add_mod_left,
          Nat.mod_eq_of_lt (by omega), Nat.zero_add]

theorem Rotated.trans {r r' : Bitstr} {n' : Int} (h : Rotated b n r) (h' : Rotated r n' r')
    (hsize : r'.bits = r.bits) : Rotated b (n + n') r' := by
  refine ⟨fun j hj => ?_⟩
  have hpos : (0 : Int) < r.bits := by omega
  rw [h'.test j hj, hsize]
  constructor
  · rintro ⟨k, hk, hset, heq⟩
    obtain ⟨i, hi, hset, hki⟩ := (h.test k hk).1 hset
    refine ⟨i, hi, hset, ?_⟩
    rw [heq, hki, Int.emod_add_emod, Int.add_assoc]
  · rintro ⟨i, hi, hset, heq⟩
    have hnonneg := Int.emod_nonneg (i + n) hpos.ne'
    have hlt := Int.emod_lt_of_pos (i + n) hpos
    obtain ⟨k, hk⟩ := Int.eq_ofNat_of_zero_le hnonneg
    refine ⟨k, by omega, (h.test k (by omega)).2 ⟨i, hi, hset, hk.symm⟩, ?_⟩
    rw [heq, ← hk, Int.emod_add_emod, Int.add_assoc]

theorem Rotated.congr {r s : Bitstr} (hr : Rotated b n r) (hs : Rotated b n s) (hsize : r.bits = s.bits) :
    ∀ j < r.bits, bitTest r j = bitTest s j := by
  intro j hj
  rw [Bool.eq_iff_iff, hr.test j hj, hs.test j (by omega), hsize]

theorem Rotated.zero (b : Bitstr) : Rotated b 0 b := by
  refine ⟨fun j hj => ?_⟩
  have hself : ∀ i < b.bits, (j : Int) = (i + 0) % b.bits ↔ j = i := by
    intro i hi
    rw [Int.add_zero, Int.emod_eq_of_lt (by omega) (by omega)]
    omega
  constructor
  · intro h
    exact ⟨j, hj, h, (hself j hj).2 rfl⟩
  · rintro ⟨i, hi, h, heq⟩
    rwa [(hself i hi).1 heq]

theorem bitRotate_eq (b : Bitstr) (n : Int) (hpos : 0 < b.bits) :
    ∃ r, bitRotate b n = some r ∧ r.bits = b.bits ∧ Rotated b n r := by
  rw [bitRotate]
  split_ifs with hn
  · subst hn
    exact ⟨b, rfl, rfl, .zero b⟩
  · obtain ⟨r, hr, hbits, hrot⟩ := bitRotateCopy_eq b n le_rfl hpos b.bits_lt
    -- `b` takes the words of the copy
    have hcopy : bitCopybits b r = some r := by
      rw [bitCopybits, dif_pos hbits.symm]
      exact congrArg some (Bitstr.ext hbits.symm rfl)
    exact ⟨r, by rw [hr, Option.bind_some, hcopy], hbits, hrot⟩

/-- **Rotation and range fill.**  A bit at `i` goes to `(i + n) mod nbits`; distances add up, and the opposite
    rotation restores the string; `bit_nset` and `bit_nclear` change exactly the positions of their range. -/
theorem rotation_and_fill (b : Bitstr) :
    (∀ (n : Int) (nbits : Nat), b.bits ≤ nbits → 0 < nbits → nbits < 2 ^ 31 →
      ∃ r, bitRotateCopy b n nbits = some r ∧ r.bits = nbits ∧ Rotated b n r) ∧
    (0 < b.bits → ∀ n n' : Int, ∃ r r' s, bitRotateCopy b n b.bits = some r ∧
      bitRotateCopy r n' b.bits = some r' ∧ bitRotateCopy b (n + n') b.bits = some s ∧
      ∀ i < b.bits, bitTest r' i = bitTest s i) ∧
    (0 < b.bits → ∀ n : Int, ∃ r r', bitRotate b n = some r ∧ bitRotate r (-n) = some r' ∧
      r'.bits = b.bits ∧ ∀ i < b.bits, bitTest r' i = bitTest b i) ∧
    ∀ start stop, start ≤ stop → stop < b.bits →
      (∃ s, bitNset b start stop = some s ∧ Filled true b s start (stop + 1)) ∧
      ∃ c, bitNclear b start stop = some c ∧ Filled false b c start (stop + 1) := by
  refine ⟨fun n nbits hle hpos hlt => bitRotateCopy_eq b n hle hpos hlt, ?_, ?_, ?_⟩
  · intro hpos n n'
    obtain ⟨r, hr, hbits, hrot⟩ := bitRotateCopy_eq b n le_rfl hpos b.bits_lt
    obtain ⟨r', hr', hbits', hrot'⟩ := bitRotateCopy_eq r n' hbits.le hpos b.bits_lt
    obtain ⟨s, hs, hbits'', hrot''⟩ := bitRotateCopy_eq b (n + n') le_rfl hpos b.bits_lt
    refine ⟨r, r', s, hr, hr', hs, ?_⟩
    have hsame := (hrot.trans hrot' (by omega)).congr hrot'' (by omega)
    rwa [hbits'] at hsame
  · intro hpos n
    obtain ⟨r, hr, hbits, hrot⟩ := bitRotate_eq b n hpos
    obtain ⟨r', hr', hbits', hrot'⟩ := bitRotate_eq r (-n) (by omega)
    have hback := hrot.trans hrot' hbits'
    rw [Int.add_right_neg] at hback
    have hsame := hback.congr (.zero b) (by omega)
    rw [hbits', hbits] at hsame
    exact ⟨r, r', hr, hr', by omega, hsame⟩
  · intro start stop hle hlt
    have hmax : max start (stop + 1) = stop + 1 := by omega
    obtain ⟨s, hs, hset⟩ := nfill_eq true (show start < b.bits by omega) hlt
    obtain ⟨c, hc, hclear⟩ := nfill_eq false (show start < b.bits by omega) hlt
    rw [hmax] at hset hclear
    exact ⟨⟨s, hs, hset⟩, c, hc, hclear⟩

end Slurmpp.Bitstring
