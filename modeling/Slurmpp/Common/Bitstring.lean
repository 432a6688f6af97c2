/-
  Bit strings (`src/common/bitstring.c`): the number of valid bits, then `(bits + 31) / 32` little-endian words.

  1. **The model** — the last word may hold bits that are not valid, and nothing in the code keeps those clear:
     `bitTest` reads ANY bit of the data words.  An operation whose assertion fails gives `none`.
  2. **Filling a range** — `bit_nset` and `bit_nclear` go bit by bit to the byte borders and then use `memset`.
     `Filled` says what a piece of this work has done; the three pieces give `nfill_eq`.
  3. **Loops over the words** — with more than `2^31 - 32` valid bits the last increment of the signed position
     overflows, and the next access is outside of the string: such a loop gives `none`.
  4. **Comparisons look at whole words.**  They answer for the valid bits as long as the others are clear
     (`Clean`), which `bit_not` and `bit_realloc` do not always keep.
-/
import Slurmpp.Lib.Machine

namespace Slurmpp.Bitstring

open List Option Nat

/-! ## Bit strings -/

/-- The data words of a string with `nbits` valid bits: `_bitstr_words(nbits) - BITSTR_OVERHEAD`. -/
def dataWords (nbits : Nat) : Nat := (nbits + 31) / 32

/-- A bit string: `_bitstr_bits(name)` and the words after the overhead. -/
@[ext]
structure Bitstr where
  bits : Nat
  words : List (BitVec 32)
  length_words : words.length = dataWords bits
  /-- the number of bits is a `bitoff_t` -/
  bits_lt : bits < 2 ^ 31
deriving DecidableEq

/-- A string of at most 32 bits. -/
def oneWord (n : Nat) (w : BitVec 32) : Bitstr :=
  if h : 0 < n ∧ n ≤ 32 then
    ⟨n, [w], by simp only [List.length_singleton, dataWords]; omega, by omega⟩
  else ⟨0, [], rfl, by decide⟩

variable {b b₁ b₂ b' : Bitstr} {v : Bool} {i bit start stop n k : Nat}

/-- The word that holds a position: `b[_bit_word(bit)]`. -/
def word (b : Bitstr) (bit : Nat) : BitVec 32 := b.words.getD (bit / 32) 0

def bitMask (bit : Nat) : BitVec 32 := 1#32 <<< (bit % 32)

/-- `bit_test`, without its assertion that the position is valid. -/
def bitTest (b : Bitstr) (bit : Nat) : Bool := word b bit &&& bitMask bit != 0

theorem getLsbD_bitMask (bit j : Nat) : (bitMask bit).getLsbD j = decide (j = bit % 32) := by
  have hm : bit % 32 < 32 := mod_lt _ (by decide)
  rw [bitMask, BitVec.getLsbD_shiftLeft, BitVec.getLsbD_one]
  by_cases h : j = bit % 32
  · simp [h, hm]
  · have : j < bit % 32 ∨ j - bit % 32 ≠ 0 := by omega
    rcases this with h' | h' <;> simp [h, h']

theorem word_congr {b : Bitstr} {i j : Nat} (h : i / 32 = j / 32) : word b i = word b j := by
  rw [word, word, h]

theorem bitTest_eq : bitTest b i = (word b i).getLsbD (i % 32) := by
  rw [bitTest, Bool.eq_iff_iff, bne_iff_ne, ne_eq]
  constructor
  · intro h
    by_contra hb
    refine h (BitVec.eq_of_getLsbD_eq fun j hj => ?_)
    rw [BitVec.getLsbD_and, getLsbD_bitMask i j]
    by_cases hji : j = i % 32
    · subst hji
      simp [Bool.eq_false_iff.2 hb]
    · simp [hji]
  · intro h h0
    have hbit := congrArg (fun w => BitVec.getLsbD w (i % 32)) h0
    simp only [BitVec.getLsbD_and, getLsbD_bitMask i, h] at hbit
    simp at hbit

theorem bitTest_of_word {b : Bitstr} {i : Nat} (h : word b i = 0) : bitTest b i = false := by
  rw [bitTest_eq, h]
  simp

theorem ext_bitTest (hb : b₁.bits = b₂.bits) (h : ∀ i, bitTest b₁ i = bitTest b₂ i) : b₁ = b₂ := by
  refine Bitstr.ext hb (ext_getElem (by rw [b₁.length_words, b₂.length_words, hb]) ?_)
  intro k hk1 hk2
  refine BitVec.eq_of_getLsbD_eq fun j hj => ?_
  have hd : (32 * k + j) / 32 = k := by omega
  have hm : (32 * k + j) % 32 = j := by omega
  have hbit := h (32 * k + j)
  rw [bitTest_eq, bitTest_eq, word, word, hd, hm, getD_eq_getElem _ _ hk1, getD_eq_getElem _ _ hk2] at hbit
  exact hbit

theorem lt_length_words (h : i < b.bits) : i / 32 < b.words.length := by
  rw [b.length_words, dataWords]
  omega

theorem bitTest_of_le (h : 32 * b.words.length ≤ i) : bitTest b i = false := by
  have hk : b.words.length ≤ i / 32 := by omega
  rw [bitTest_eq, word, getD_eq_getElem?_getD, getElem?_eq_none hk]
  simp

def modifyWord (b : Bitstr) (k : Nat) (f : BitVec 32 → BitVec 32) : Bitstr :=
  { b with
    words := b.words.modify k f
    length_words := by rw [length_modify, b.length_words] }

@[simp] theorem length_modifyWord (f : BitVec 32 → BitVec 32) :
    (modifyWord b k f).words.length = b.words.length := length_modify ..

theorem word_modifyWord (f : BitVec 32 → BitVec 32) (hk : k < b.words.length) :
    word (modifyWord b k f) i = if i / 32 = k then f (word b i) else word b i := by
  unfold word modifyWord
  rw [getD_eq_getElem?_getD, getD_eq_getElem?_getD, getElem?_modify]
  by_cases h : i / 32 = k
  · simp [h, hk]
  · simp [h, Ne.symm h]

/-! ## Filling a range -/

/-- Sets (`|= m`) or clears (`&= ~m`) the bits of a mask. -/
def fillMask (v : Bool) (m w : BitVec 32) : BitVec 32 := if v then w ||| m else w &&& ~~~m

variable {j lo mid hi : Nat}

theorem getLsbD_fillMask (m w : BitVec 32) (hj : j < 32) :
    (fillMask v m w).getLsbD j = if m.getLsbD j then v else w.getLsbD j := by
  cases v with
  | false =>
    rw [fillMask, if_neg (by decide), BitVec.getLsbD_and, BitVec.getLsbD_not]
    cases m.getLsbD j <;> simp [hj]
  | true =>
    rw [fillMask, if_pos rfl, BitVec.getLsbD_or]
    cases m.getLsbD j <;> simp

/-- What `bit_set` and `bit_clear` do to a valid position. -/
def put (v : Bool) (b : Bitstr) (bit : Nat) : Bitstr :=
  modifyWord b (bit / 32) (fillMask v (bitMask bit))

def bitSet (b : Bitstr) (bit : Nat) : Option Bitstr :=
  if bit < b.bits then some (put true b bit) else none

def bitClear (b : Bitstr) (bit : Nat) : Option Bitstr :=
  if bit < b.bits then some (put false b bit) else none

/-- `memset` of `n` bytes from byte `k` of the data, to all ones or all zeros. -/
def memset (v : Bool) : Bitstr → Nat → Nat → Bitstr
  | b, _, 0 => b
  | b, k, n + 1 =>
    memset v (modifyWord b (k / 4) (fillMask v (0xff#32 <<< (8 * (k % 4))))) (k + 1) n

/-- The loop "partial first byte?" over the `n` positions from `start`: what is left of them. -/
def fillFirst (v : Bool) : Bitstr → Nat → Nat → Bitstr × Nat × Nat
  | b, start, 0 => (b, start, 0)
  | b, start, n + 1 =>
    if start % 8 > 0 then fillFirst v (put v b start) (start + 1) n else (b, start, n + 1)

/-- The loop "partial last byte?"; the last of the `n + 1` positions is `stop = start + n`. -/
def fillLast (v : Bool) : Bitstr → Nat → Nat → Bitstr × Nat
  | b, _, 0 => (b, 0)
  | b, start, n + 1 =>
    if (start + n + 1) % 8 > 0 then fillLast v (put v b (start + n)) start n else (b, n + 1)

/-- The common body of `bit_nset` and `bit_nclear`. -/
def nfill (v : Bool) (b : Bitstr) (start stop : Nat) : Option Bitstr :=
  if start < b.bits ∧ stop < b.bits then
    let (b, start, n) := fillFirst v b start (stop + 1 - start)
    let (b, n) := fillLast v b start n
    if n > 1 then
      if n % 8 = 0 then some (memset v b (start / 8) (n / 8)) else none
    else some b
  else none

def bitNset (b : Bitstr) (start stop : Nat) : Option Bitstr := nfill true b start stop

def bitNclear (b : Bitstr) (start stop : Nat) : Option Bitstr := nfill false b start stop

/-- `b'` is `b` with the positions from `lo` to `hi - 1` filled with `v`. -/
structure Filled (v : Bool) (b b' : Bitstr) (lo hi : Nat) : Prop where
  bits : b'.bits = b.bits
  test : ∀ i, bitTest b' i = if lo ≤ i ∧ i < hi then v else bitTest b i

theorem Filled.refl (v : Bool) (b : Bitstr) (lo : Nat) : Filled v b b lo lo :=
  ⟨rfl, fun i => by simp [show ¬(lo ≤ i ∧ i < lo) by omega]⟩

theorem Filled.trans {b₁ b₂ b3 : Bitstr} (h1 : Filled v b₁ b₂ lo mid)
    (h2 : Filled v b₂ b3 mid hi) (hlo : lo ≤ mid) (hhi : mid ≤ hi) : Filled v b₁ b3 lo hi := by
  refine ⟨h2.bits.trans h1.bits, fun i => ?_⟩
  rw [h2.test, h1.test]
  split_ifs <;> first | rfl | omega

theorem Filled.trans_back {b₁ b₂ b3 : Bitstr} (h1 : Filled v b₁ b₂ mid hi)
    (h2 : Filled v b₂ b3 lo mid) (hlo : lo ≤ mid) (hhi : mid ≤ hi) : Filled v b₁ b3 lo hi := by
  refine ⟨h2.bits.trans h1.bits, fun i => ?_⟩
  rw [h2.test, h1.test]
  split_ifs <;> first | rfl | omega

theorem Filled.length_words (h : Filled v b b' lo hi) : b'.words.length = b.words.length := by
  rw [b'.length_words, b.length_words, h.bits]

theorem filled_mask {m : BitVec 32} (hk : k < b.words.length)
    (hm : ∀ j < 32, m.getLsbD j = decide (lo ≤ 32 * k + j ∧ 32 * k + j < hi))
    (hlo : 32 * k ≤ lo) (hhi : hi ≤ 32 * (k + 1)) : Filled v b (modifyWord b k (fillMask v m)) lo hi := by
  refine ⟨rfl, fun i => ?_⟩
  have hmod : i % 32 < 32 := mod_lt _ (by decide)
  rw [bitTest_eq, bitTest_eq, word_modifyWord _ hk]
  by_cases h : i / 32 = k
  · have hi : 32 * k + i % 32 = i := by omega
    rw [if_pos h, getLsbD_fillMask m _ hmod, hm _ hmod, hi]
    simp only [decide_eq_true_eq]
  · have hout : ¬(lo ≤ i ∧ i < hi) := by omega
    rw [if_neg h, if_neg hout]

theorem filled_put (v : Bool) (hbit : bit < b.bits) : Filled v b (put v b bit) bit (bit + 1) := by
  refine filled_mask (lt_length_words hbit) (fun j hj => ?_) (by omega) (by omega)
  rw [getLsbD_bitMask bit j, decide_eq_decide]
  omega

theorem bitTest_put (hbit : bit < b.bits) : bitTest (put v b bit) i = if i = bit then v else bitTest b i := by
  rw [(filled_put v hbit).test]
  exact if_congr (by omega) rfl rfl

theorem ite_eq_put (hbit : bit < b.bits) :
    (if v = true then bitSet b bit else bitClear b bit) = some (put v b bit) := by
  cases v with
  | false | true => exact if_pos hbit

theorem bitSet_eq_some (h : bitSet b bit = some b') : bit < b.bits ∧ b'.bits = b.bits ∧
    ∀ i, bitTest b' i = (decide (i = bit) || bitTest b i) := by
  obtain ⟨hbit, h⟩ := ite_none_right_eq_some.1 h
  cases h
  refine ⟨hbit, rfl, fun i => ?_⟩
  rw [bitTest_put hbit]
  by_cases hi : i = bit <;> simp [hi]

theorem bitClear_eq (hi : i < b.bits) : ∃ b', bitClear b i = some b' ∧ b'.bits = b.bits ∧
    ∀ k, bitTest b' k = (bitTest b k && !decide (k = i)) := by
  refine ⟨_, if_pos hi, rfl, fun k => ?_⟩
  rw [bitTest_put hi]
  by_cases hk : k = i <;> simp [hk]

theorem getLsbD_byteMask {c : Nat} (hj : j < 32) :
    (0xff#32 <<< (8 * c)).getLsbD j = decide (8 * c ≤ j ∧ j < 8 * c + 8) := by
  have hff : ∀ m < 32, (0xff#32).getLsbD m = decide (m < 8) := by decide
  rw [BitVec.getLsbD_shiftLeft, hff _ (by omega)]
  by_cases h : j < 8 * c
  · simp [h]
  · simp only [hj, h, decide_true, decide_false, Bool.not_false, Bool.and_true, Bool.true_and, decide_eq_decide]
    omega

theorem filled_memset (h : 8 * (k + n) ≤ 32 * b.words.length) :
    Filled v b (memset v b k n) (8 * k) (8 * (k + n)) := by
  induction n generalizing b k with
  | zero => exact Filled.refl v b _
  | succ n ih =>
    have hbyte : Filled v b (modifyWord b (k / 4) (fillMask v (0xff#32 <<< (8 * (k % 4)))))
        (8 * k) (8 * (k + 1)) := by
      refine filled_mask (by omega) (fun j hj => ?_) (by omega) (by omega)
      rw [getLsbD_byteMask hj, decide_eq_decide]
      omega
    have hrest := ih (b := modifyWord b (k / 4) (fillMask v (0xff#32 <<< (8 * (k % 4)))))
      (k := k + 1) (by rw [length_modifyWord]; omega)
    rw [memset, show k + (n + 1) = k + 1 + n by omega]
    exact hbyte.trans hrest (by omega) (by omega)

theorem fillFirst_eq (h : start + n ≤ b.bits) : ∃ b' m, fillFirst v b start n = (b', start + m, n - m) ∧
    m ≤ n ∧ (m = n ∨ (start + m) % 8 = 0) ∧ Filled v b b' start (start + m) := by
  induction n generalizing b start with
  | zero => exact ⟨b, 0, rfl, le_rfl, .inl rfl, Filled.refl v b start⟩
  | succ n ih =>
    by_cases hs : start % 8 > 0
    · have hput := filled_put v (show start < b.bits by omega)
      have hlen : start + 1 + n ≤ (put v b start).bits := by
        rw [hput.bits]
        omega
      obtain ⟨b', m, heq, hm, hstop, hfill⟩ := ih hlen
      refine ⟨b', m + 1, ?_, by omega, by omega, ?_⟩
      · rw [fillFirst, if_pos hs, heq]
        congr 2 <;> omega
      · have h' := hput.trans hfill (by omega) (by omega)
        rwa [show start + 1 + m = start + (m + 1) by omega] at h'
    · exact ⟨b, 0, by simp [fillFirst, hs], by omega, by omega, Filled.refl v b start⟩

theorem fillLast_eq (h : start + n ≤ b.bits) : ∃ b' m, fillLast v b start n = (b', m) ∧
    m ≤ n ∧ (m = 0 ∨ (start + m) % 8 = 0) ∧ Filled v b b' (start + m) (start + n) := by
  induction n generalizing b with
  | zero => exact ⟨b, 0, rfl, le_rfl, .inl rfl, Filled.refl v b _⟩
  | succ n ih =>
    by_cases hs : (start + n + 1) % 8 > 0
    · have hput := filled_put v (show start + n < b.bits by omega)
      obtain ⟨b', m, heq, hm, hstop, hfill⟩ := ih (by rw [hput.bits]; omega)
      refine ⟨b', m, ?_, by omega, hstop, hput.trans_back hfill (by omega) (by omega)⟩
      rw [fillLast, if_pos hs, heq]
    · exact ⟨b, n + 1, by simp [fillLast, hs], le_rfl, by omega, Filled.refl v b _⟩

/-- **A range is filled**, whatever its place among the bytes. -/
theorem nfill_eq (v : Bool) (hstart : start < b.bits) (hstop : stop < b.bits) :
    ∃ b', nfill v b start stop = some b' ∧ Filled v b b' start (max start (stop + 1)) := by
  have hlen : start + (stop + 1 - start) ≤ b.bits := by omega
  obtain ⟨b₁, m1, heq1, hm1, hend1, hfill1⟩ := fillFirst_eq (v := v) hlen
  have hlen1 : start + m1 + (stop + 1 - start - m1) ≤ b₁.bits := by
    rw [hfill1.bits]
    omega
  obtain ⟨b₂, m2, heq2, hm2, hend2, hfill2⟩ := fillLast_eq (v := v) hlen1
  have hends : start + m1 + (stop + 1 - start - m1) = max start (stop + 1) := by omega
  rw [hends] at hfill2
  simp only [nfill, hstart, hstop, and_self, if_true, heq1, heq2]
  by_cases hm : m2 > 1
  · -- both borders are byte borders now
    have hmod : m2 % 8 = 0 := by omega
    have hset : Filled v b₂ (memset v b₂ ((start + m1) / 8) (m2 / 8)) (start + m1)
        (start + m1 + m2) := by
      have hlen : 8 * ((start + m1) / 8 + m2 / 8) ≤ 32 * b₂.words.length := by
        rw [hfill2.length_words, hfill1.length_words, b.length_words, dataWords]
        omega
      have hset := filled_memset (v := v) hlen
      rwa [show 8 * ((start + m1) / 8) = start + m1 by omega,
        show 8 * ((start + m1) / 8 + m2 / 8) = start + m1 + m2 by omega] at hset
    refine ⟨_, by rw [if_pos hm, if_pos hmod], ?_⟩
    exact hfill1.trans (hfill2.trans_back hset (by omega) (by omega)) (by omega) (by omega)
  · have hzero : m2 = 0 := by omega
    subst hzero
    exact ⟨b₂, by simp, hfill1.trans hfill2 (by omega) (by omega)⟩

theorem nfill_eq_some (h : nfill v b start stop = some b') :
    start < b.bits ∧ stop < b.bits ∧ Filled v b b' start (max start (stop + 1)) := by
  obtain ⟨⟨hstart, hstop⟩, -⟩ := ite_none_right_eq_some.1 h
  obtain ⟨b'', heq, hfill⟩ := nfill_eq v hstart hstop
  cases heq.symm.trans h
  exact ⟨hstart, hstop, hfill⟩

/-! ## Making and resizing -/

/-- `bit_alloc`: the words come from `calloc`. -/
def bitAlloc (nbits : Nat) : Option Bitstr :=
  if h : nbits < 2 ^ 31 then
    some ⟨nbits, replicate (dataWords nbits) 0, length_replicate, h⟩
  else none

/-- `bit_copy`: `memcpy` of all data words into a new string. -/
def bitCopy (b : Bitstr) : Bitstr := ⟨b.bits, b.words, b.length_words, b.bits_lt⟩

/-- What `realloc` leaves: the words that fit, and then whatever the memory holds. -/
def resized (b : Bitstr) (nbits : Nat) (memory : Nat → BitVec 32) (h : nbits < 2 ^ 31) : Bitstr :=
  ⟨nbits, (range (dataWords nbits)).map fun k => b.words.getD k (memory k), by simp, h⟩

def bitRealloc (b : Bitstr) (nbits : Nat) (memory : Nat → BitVec 32) : Option Bitstr :=
  if h : nbits < 2 ^ 31 then
    if nbits > b.bits then bitNclear (resized b nbits memory h) b.bits (nbits - 1)
    else some (resized b nbits memory h)
  else none

theorem bitTest_resized (memory : Nat → BitVec 32) (h : n < 2 ^ 31) (hi : i / 32 < dataWords n)
    (hold : i / 32 < b.words.length) : bitTest (resized b n memory h) i = bitTest b i := by
  simp only [bitTest_eq, word, resized]
  rw [getD_eq_getElem?_getD, getElem?_map, getElem?_range hi]
  simp [getD_eq_getElem?_getD, getElem?_eq_getElem hold]

/-! ## Loops over the words -/

/-- `for (bit = 0; bit < nbits; bit += 32) b[_bit_word(bit)] = f(bit, b[_bit_word(bit)])`, at word `k`
    (position `32 * k`) with `n` words to go. -/
def updWords (f : Nat → BitVec 32 → BitVec 32) : Nat → Nat → Bitstr → Option Bitstr
  | 0, _, b => some b
  | n + 1, k, b =>
    if 32 * k < b.bits then
      if 32 * (k + 1) < 2 ^ 31 then updWords f n (k + 1) (modifyWord b k (f k)) else none
    else some b

/-- `for (bit = 0; bit < nbits; bit += 32) if (!ok(bit)) return 0; return 1;` -/
def allWords (nbits : Nat) (ok : Nat → Bool) : Nat → Nat → Option Bool
  | 0, _ => some true
  | n + 1, k =>
    if 32 * k < nbits then
      if ok k then
        if 32 * (k + 1) < 2 ^ 31 then allWords nbits ok n (k + 1) else none
      else some false
    else some true

/-- `b1 op= b2`, word by word. -/
def combine (op : BitVec 32 → BitVec 32 → BitVec 32) (b₁ b₂ : Bitstr) : Option Bitstr :=
  if b₁.bits = b₂.bits then
    updWords (fun k w => op w (word b₂ (32 * k))) b₁.words.length 0 b₁
  else none

def bitAnd (b₁ b₂ : Bitstr) : Option Bitstr := combine (· &&& ·) b₁ b₂

def bitOr (b₁ b₂ : Bitstr) : Option Bitstr := combine (· ||| ·) b₁ b₂

def bitNot (b : Bitstr) : Option Bitstr := updWords (fun _ w => ~~~w) b.words.length 0 b

def bitEqual (b₁ b₂ : Bitstr) : Option Bool :=
  if b₁.bits ≠ b₂.bits then some false
  else allWords b₁.bits (fun k => word b₁ (32 * k) == word b₂ (32 * k)) b₁.words.length 0

def bitSuperSet (b₁ b₂ : Bitstr) : Option Bool :=
  if b₁.bits = b₂.bits then
    allWords b₁.bits (fun k => word b₁ (32 * k) == word b₁ (32 * k) &&& word b₂ (32 * k))
      b₁.words.length 0
  else none

theorem updWords_eq_some {f : Nat → BitVec 32 → BitVec 32} (hn : k + n = b.words.length)
    (h : updWords f n k b = some b') : b'.bits = b.bits ∧
      ∀ i, word b' i = if k ≤ i / 32 ∧ i / 32 < b.words.length then f (i / 32) (word b i) else word b i := by
  have hlen := b.length_words
  rw [dataWords] at hlen
  fun_induction updWords with
  | case1 k b | case4 n k b =>
    cases h
    exact ⟨rfl, fun i => by rw [if_neg (by omega)]⟩
  | case2 n k b _ _ ih =>
    obtain ⟨hbits, hword⟩ := ih (by rw [length_modifyWord]; omega) h (by rw [length_modifyWord]; exact hlen)
    refine ⟨hbits, fun i => ?_⟩
    rw [hword, length_modifyWord, word_modifyWord _ (by omega)]
    by_cases hk : i / 32 = k
    · rw [if_neg (by omega), if_pos hk, if_pos (by omega), hk]
    · rw [if_neg hk]
      exact if_congr (by omega) rfl rfl
  | case3 => cases h

theorem allWords_eq {nbits : Nat} {ok : Nat → Bool} (hsize : nbits ≤ 2 ^ 31 - 32) (hn : k + n = dataWords nbits) :
    allWords nbits ok n k = some (decide (∀ j, k ≤ j → j < dataWords nbits → ok j = true)) := by
  induction n generalizing k with
  | zero =>
    have hall : ∀ j, k ≤ j → j < dataWords nbits → ok j = true := fun j hj hlt => by omega
    rw [allWords, decide_eq_true hall]
  | succ n ih =>
    have hk : 32 * k < nbits := by
      rw [dataWords] at hn
      omega
    rw [allWords, if_pos hk, ih (by omega)]
    cases hok : ok k with
    | false =>
      have hno : ¬∀ j, k ≤ j → j < dataWords nbits → ok j = true := fun h => by
        rw [h k le_rfl (by omega)] at hok
        cases hok
      simp [hno]
    | true =>
      rw [if_pos rfl, if_pos (by omega)]
      congr 1
      rw [decide_eq_decide]
      constructor
      · intro h j hj hlt
        rcases lt_or_eq_of_le hj with hj | rfl
        · exact h j hj hlt
        · exact hok
      · exact fun h j hj hlt => h j (by omega) hlt

theorem combine_eq_some {op : BitVec 32 → BitVec 32 → BitVec 32} {op' : Bool → Bool → Bool}
    (hop : ∀ x y : BitVec 32, ∀ j < 32, (op x y).getLsbD j = op' (x.getLsbD j) (y.getLsbD j))
    (h : combine op b₁ b₂ = some b') : b₁.bits = b₂.bits ∧ b'.bits = b₁.bits ∧
      ∀ i < 32 * b₁.words.length, bitTest b' i = op' (bitTest b₁ i) (bitTest b₂ i) := by
  obtain ⟨hb, h⟩ := ite_none_right_eq_some.1 h
  obtain ⟨hbits, hword⟩ := updWords_eq_some (zero_add _) h
  refine ⟨hb, hbits, fun i hi => ?_⟩
  have hdiv : 32 * (i / 32) / 32 = i / 32 := by omega
  have hw : word b₂ (32 * (i / 32)) = word b₂ i := word_congr hdiv
  rw [bitTest_eq, hword, if_pos (by omega), hop _ _ _ (mod_lt _ (by decide)), hw, ← bitTest_eq, ← bitTest_eq]

theorem bitAnd_eq_some (h : bitAnd b₁ b₂ = some b') : b₁.bits = b₂.bits ∧ b'.bits = b₁.bits ∧
    ∀ i < 32 * b₁.words.length, bitTest b' i = (bitTest b₁ i && bitTest b₂ i) :=
  combine_eq_some (fun _ _ _ _ => BitVec.getLsbD_and) h

theorem bitOr_eq_some (h : bitOr b₁ b₂ = some b') : b₁.bits = b₂.bits ∧ b'.bits = b₁.bits ∧
    ∀ i < 32 * b₁.words.length, bitTest b' i = (bitTest b₁ i || bitTest b₂ i) :=
  combine_eq_some (fun _ _ _ _ => BitVec.getLsbD_or) h

theorem bitNot_eq_some (h : bitNot b = some b') : b'.bits = b.bits ∧
    ∀ i < 32 * b.words.length, bitTest b' i = !bitTest b i := by
  obtain ⟨hbits, hword⟩ := updWords_eq_some (zero_add _) h
  refine ⟨hbits, fun i hi => ?_⟩
  rw [bitTest_eq, hword, if_pos (by omega), BitVec.getLsbD_not, bitTest_eq]
  simp [mod_lt i]

theorem exists_updWords (f : Nat → BitVec 32 → BitVec 32) (hsize : b.bits ≤ 2 ^ 31 - 32) :
    ∃ b', updWords f n k b = some b' := by
  fun_induction updWords with
  | case1 k b | case4 n k b hk => exact ⟨b, rfl⟩
  | case2 n k b hk hnext ih => exact ih hsize
  | case3 n k b hk hnext => omega

theorem without_eq_some {others : Bitstr} (hnot : bitNot b₂ = some others) (hand : bitAnd b₁ others = some b') :
    b'.bits = b₁.bits ∧ ∀ i, bitTest b' i = (bitTest b₁ i && !bitTest b₂ i) := by
  obtain ⟨hbits2, htest2⟩ := bitNot_eq_some hnot
  obtain ⟨hsame, hbits, htest⟩ := bitAnd_eq_some hand
  refine ⟨hbits, fun i => ?_⟩
  have hlen : b₁.words.length = b₂.words.length := by
    rw [b₁.length_words, b₂.length_words, hsame, hbits2]
  by_cases hi : i < 32 * b₁.words.length
  · rw [htest i hi, htest2 i (by omega)]
  · have hlen' : b'.words.length = b₁.words.length := by
      rw [b'.length_words, b₁.length_words, hbits]
    rw [bitTest_of_le (by omega), bitTest_of_le (by omega : 32 * b₁.words.length ≤ i)]
    rfl

theorem exists_without (hsame : b₁.bits = b₂.bits) (hsize : b₁.bits ≤ 2 ^ 31 - 32) :
    ∃ others b', bitNot b₂ = some others ∧ bitAnd b₁ others = some b' := by
  obtain ⟨others, hnot⟩ := exists_updWords (b := b₂) (fun _ w => ~~~w) (by omega)
  obtain ⟨b', hand⟩ := exists_updWords (fun k w => w &&& word others (32 * k)) hsize
  refine ⟨others, b', hnot, ?_⟩
  rw [bitAnd, combine, if_pos (hsame.trans (bitNot_eq_some hnot).1.symm)]
  exact hand

/-! ## What the comparisons compare -/

theorem forall_words {r : Bool → Bool → Prop} :
    (∀ k, k < dataWords b₁.bits → ∀ j < 32, r ((word b₁ (32 * k)).getLsbD j)
      ((word b₂ (32 * k)).getLsbD j)) ↔ ∀ i < 32 * dataWords b₁.bits, r (bitTest b₁ i) (bitTest b₂ i) := by
  constructor
  · intro h i hi
    have hw := h (i / 32) (by omega) (i % 32) (mod_lt _ (by decide))
    have hdiv : 32 * (i / 32) / 32 = i / 32 := by omega
    rw [word, word, hdiv] at hw
    rw [bitTest_eq, bitTest_eq]
    exact hw
  · intro h k hk j hj
    have hb := h (32 * k + j) (by omega)
    have hd : (32 * k + j) / 32 = 32 * k / 32 := by omega
    have hm : (32 * k + j) % 32 = j := by omega
    rw [bitTest_eq, bitTest_eq, word, word, hd, hm] at hb
    exact hb

theorem bitEqual_eq (hsame : b₁.bits = b₂.bits) (hsize : b₁.bits ≤ 2 ^ 31 - 32) :
    bitEqual b₁ b₂ = some (decide (∀ i < 32 * dataWords b₁.bits, bitTest b₁ i = bitTest b₂ i)) := by
  rw [bitEqual, if_neg (by simp [hsame]), allWords_eq hsize (by rw [b₁.length_words]; omega)]
  congr 1
  rw [decide_eq_decide, ← forall_words]
  simp only [zero_le, forall_const, beq_iff_eq]
  exact forall₂_congr fun k _ => ⟨fun h j _ => by rw [h], fun h => BitVec.eq_of_getLsbD_eq h⟩

theorem bitSuperSet_eq (hsame : b₁.bits = b₂.bits) (hsize : b₁.bits ≤ 2 ^ 31 - 32) :
    bitSuperSet b₁ b₂ = some (decide (∀ i < 32 * dataWords b₁.bits, bitTest b₁ i = true → bitTest b₂ i = true)) := by
  rw [bitSuperSet, if_pos hsame, allWords_eq hsize (by rw [b₁.length_words]; omega)]
  congr 1
  rw [decide_eq_decide, ← forall_words (r := fun x y => x = true → y = true)]
  simp only [zero_le, forall_const, beq_iff_eq]
  refine forall₂_congr fun k _ => ⟨fun h j _ hx => ?_, fun h => BitVec.eq_of_getLsbD_eq fun j hj => ?_⟩
  · rw [h, BitVec.getLsbD_and, Bool.and_eq_true] at hx
    exact hx.2
  · have hj := h j hj
    rw [BitVec.getLsbD_and]
    cases hx : (word b₁ (32 * k)).getLsbD j with
    | false => rfl
    | true => rw [hj hx, Bool.and_true]

/-! ## Clean strings -/

/-- No bit behind the valid ones is set. -/
def Clean (b : Bitstr) : Prop := ∀ i, b.bits ≤ i → bitTest b i = false

theorem bits_bitAlloc (h : bitAlloc n = some b) : b.bits = n := by
  obtain ⟨_, h⟩ := dite_none_right_eq_some.1 h
  cases h
  rfl

theorem bitTest_bitAlloc (h : bitAlloc n = some b) (i : Nat) : bitTest b i = false := by
  obtain ⟨_, h⟩ := dite_none_right_eq_some.1 h
  cases h
  rw [bitTest_eq, word, getD_eq_getElem?_getD, getElem?_replicate]
  split <;> simp

theorem clean_bitAlloc (h : bitAlloc n = some b) : Clean b := fun i _ => bitTest_bitAlloc h i

theorem Filled.clean (h : Filled v b b' lo hi) (hhi : hi ≤ b.bits) (hb : Clean b) : Clean b' := by
  intro i hi
  rw [h.bits] at hi
  rw [h.test, if_neg (by omega)]
  exact hb i hi

theorem clean_of_test {op : Bool → Bool → Bool} (hop : op false false = false) (h1 : Clean b₁)
    (h2 : Clean b₂) (hsame : b₁.bits = b₂.bits) (hbits : b'.bits = b₁.bits)
    (htest : ∀ i < 32 * b₁.words.length, bitTest b' i = op (bitTest b₁ i) (bitTest b₂ i)) : Clean b' := by
  intro i hi
  by_cases hlt : i < 32 * b₁.words.length
  · rw [htest i hlt, h1 i (by omega), h2 i (by omega), hop]
  · refine bitTest_of_le ?_
    rw [b'.length_words, hbits, ← b₁.length_words]
    omega

theorem clean_of_whole (h : b.bits % 32 = 0) : Clean b := by
  intro i hi
  refine bitTest_of_le ?_
  rw [b.length_words, dataWords]
  omega

/-- A resize that brings no set bit behind the valid ones: to whole words, or within the words there
    are, when the bits from the new size to the end of its word are clear. -/
def Fits (b : Bitstr) (nbits : Nat) : Prop :=
  nbits % 32 = 0 ∨ nbits ≤ 32 * b.words.length ∧
    ∀ i < 32 * b.words.length, nbits ≤ i → i / 32 = nbits / 32 → bitTest b i = false

instance (b : Bitstr) (nbits : Nat) : Decidable (Fits b nbits) := inferInstanceAs (Decidable (_ ∨ _))

theorem clean_resized {memory : Nat → BitVec 32} (h : n < 2 ^ 31) (hfit : Fits b n) :
    Clean (resized b n memory h) := by
  rcases hfit with hwhole | ⟨hle, hclear⟩
  · exact clean_of_whole hwhole
  · intro i hi
    have hi : n ≤ i := hi
    by_cases hlt : i / 32 < dataWords n
    · have hold : i / 32 < b.words.length := by
        rw [dataWords] at hlt
        omega
      have hlast : i / 32 = n / 32 := by
        rw [dataWords] at hlt
        omega
      rw [bitTest_resized memory h hlt hold]
      exact hclear i (by omega) hi hlast
    · refine bitTest_of_le ?_
      rw [(resized b n memory h).length_words]
      change 32 * dataWords n ≤ i
      omega

theorem clean_bitRealloc {memory : Nat → BitVec 32} (hfit : Fits b n)
    (h : bitRealloc b n memory = some b') : Clean b' := by
  obtain ⟨hn, h⟩ := dite_none_right_eq_some.1 h
  split at h
  · obtain ⟨-, hstop, hfill⟩ := nfill_eq_some h
    have hstop : n - 1 < n := hstop
    refine hfill.clean ?_ (clean_resized hn hfit)
    change max b.bits (n - 1 + 1) ≤ n
    omega
  · cases h
    exact clean_resized hn hfit

/-! ## Programs that work on bit strings -/

/-- The calls, on strings named by numbers. -/
inductive Call
  | alloc (x nbits : Nat)
  | set (x bit : Nat)
  | clear (x bit : Nat)
  | nset (x start stop : Nat)
  | nclear (x start stop : Nat)
  | not (x : Nat)
  | and (x y : Nat)
  | or (x y : Nat)
  /-- `x = bit_copy(y)` -/
  | copy (x y : Nat)
  /-- `x = bit_realloc(x, nbits)`; `memory` is what the words behind the old ones happen to hold -/
  | realloc (x nbits : Nat) (memory : Nat → BitVec 32)

abbrev Strings := Nat → Option Bitstr

/-- The string a call writes, and what it writes. -/
def Call.result (s : Strings) : Call → Nat × Option Bitstr
  | .alloc x nbits => (x, bitAlloc nbits)
  | .set x bit => (x, (s x).bind (bitSet · bit))
  | .clear x bit => (x, (s x).bind (bitClear · bit))
  | .nset x start stop => (x, (s x).bind (bitNset · start stop))
  | .nclear x start stop => (x, (s x).bind (bitNclear · start stop))
  | .not x => (x, (s x).bind bitNot)
  | .and x y => (x, (s x).bind fun b₁ => (s y).bind (bitAnd b₁))
  | .or x y => (x, (s x).bind fun b₁ => (s y).bind (bitOr b₁))
  | .copy x y => (x, (s y).map bitCopy)
  | .realloc x nbits memory => (x, (s x).bind (bitRealloc · nbits memory))

def program : Machine Strings Call where
  step s c := (c.result s).2.map fun b => Function.update s (c.result s).1 (some b)

/-- The calls that leave no set bit behind the valid ones. -/
def Tidy (s : Strings) : Call → Prop
  | .not x => ∀ b ∈ s x, b.bits % 32 = 0
  | .realloc x nbits _ => ∀ b ∈ s x, Fits b nbits
  | _ => True

instance (s : Strings) (c : Call) : Decidable (Tidy s c) := by
  cases c <;> unfold Tidy <;> infer_instance

theorem clean_result {s : Strings} (hs : ∀ x, ∀ b ∈ s x, Clean b) {c : Call} (hc : Tidy s c)
    (h : (c.result s).2 = some b') : Clean b' := by
  have hput : ∀ {v x bit}, ((s x).bind fun b => if bit < b.bits then some (put v b bit) else none) =
      some b' → Clean b' := by
    intro v x bit h
    obtain ⟨b, hx, h⟩ := bind_eq_some_iff.1 h
    obtain ⟨hbit, h⟩ := ite_none_right_eq_some.1 h
    cases h
    exact (filled_put v hbit).clean (by omega) (hs x b hx)
  have hfill : ∀ {v x start stop}, ((s x).bind fun b => nfill v b start stop) = some b' → Clean b' := by
    intro v x start stop h
    obtain ⟨b, hx, h⟩ := bind_eq_some_iff.1 h
    obtain ⟨hstart, hstop, hfill⟩ := nfill_eq_some h
    exact hfill.clean (by omega) (hs x b hx)
  cases c with
  | alloc x nbits => exact clean_bitAlloc h
  | set | clear => exact hput h
  | nset | nclear => exact hfill h
  | not x =>
    obtain ⟨b, hx, h⟩ := bind_eq_some_iff.1 h
    exact clean_of_whole ((bitNot_eq_some h).1 ▸ hc b hx)
  | and x y =>
    obtain ⟨b₁, hx, h⟩ := bind_eq_some_iff.1 h
    obtain ⟨b₂, hy, h⟩ := bind_eq_some_iff.1 h
    obtain ⟨hsame, hbits, htest⟩ := bitAnd_eq_some h
    exact clean_of_test rfl (hs x b₁ hx) (hs y b₂ hy) hsame hbits htest
  | or x y =>
    obtain ⟨b₁, hx, h⟩ := bind_eq_some_iff.1 h
    obtain ⟨b₂, hy, h⟩ := bind_eq_some_iff.1 h
    obtain ⟨hsame, hbits, htest⟩ := bitOr_eq_some h
    exact clean_of_test rfl (hs x b₁ hx) (hs y b₂ hy) hsame hbits htest
  | copy x y =>
    obtain ⟨b, hy, rfl⟩ := map_eq_some_iff.1 h
    exact hs y b hy
  | realloc x nbits memory =>
    obtain ⟨b, hx, h⟩ := bind_eq_some_iff.1 h
    exact clean_bitRealloc (hc b hx) h

def noStrings : Strings := fun _ => none

/-- **In a program of tidy calls every string is clean.** -/
theorem clean_of_reach {s : Strings} (h : program.Reach Tidy noStrings s) : ∀ x, ∀ b ∈ s x, Clean b := by
  refine h.invariant (I := fun s => ∀ x, ∀ b ∈ s x, Clean b) ?_ ?_
  · intro x b hb
    simp [noStrings] at hb
  · intro s c t hs hc hstep x b hb
    obtain ⟨b', hres, rfl⟩ := map_eq_some_iff.1 hstep
    by_cases hx : x = (c.result s).1
    · subst hx
      simp only [Function.update_self, mem_some_iff] at hb
      exact hb ▸ clean_result hs hc hres
    · rw [Function.update_of_ne hx] at hb
      exact hs x b hb

/-- **Bitmaps are told apart by their valid bits.**  In a program whose calls are tidy, `bit_equal`
    and `bit_super_set` on two strings of one size (with room for a last word) answer for the
    valid bits. -/
theorem bitmaps_extensional {s : Strings} {x y : Nat} (h : program.Reach Tidy noStrings s)
    (hx : s x = some b₁) (hy : s y = some b₂) (hsame : b₁.bits = b₂.bits)
    (hsize : b₁.bits ≤ 2 ^ 31 - 32) :
    bitEqual b₁ b₂ = some (decide (∀ i < b₁.bits, bitTest b₁ i = bitTest b₂ i)) ∧
    bitSuperSet b₁ b₂ =
      some (decide (∀ i < b₁.bits, bitTest b₁ i = true → bitTest b₂ i = true)) := by
  have hc₁ := clean_of_reach h x b₁ hx
  have hc₂ := clean_of_reach h y b₂ hy
  have hlen : b₁.bits ≤ 32 * dataWords b₁.bits := by
    rw [dataWords]
    omega
  rw [bitEqual_eq hsame hsize, bitSuperSet_eq hsame hsize]
  refine ⟨congrArg some (decide_eq_decide.2 ⟨fun h i hi => h i (by omega), fun h i _ => ?_⟩),
    congrArg some (decide_eq_decide.2 ⟨fun h i hi => h i (by omega), fun h i _ hi => ?_⟩)⟩
  · by_cases hlt : i < b₁.bits
    · exact h i hlt
    · rw [hc₁ i (by omega), hc₂ i (by omega)]
  · by_cases hlt : i < b₁.bits
    · exact h i hlt hi
    · rw [hc₁ i (by omega)] at hi
      cases hi

/-- Two strings of 40 bits, the first of them complemented while it had 64 and then shortened. -/
def fortyCalls : List Call :=
  [.alloc 0 64, .nset 0 9 63, .not 0, .realloc 0 40 fun _ => 0, .alloc 1 40, .nset 1 2 33]

theorem bitmaps_extensional_forty : ∃ s b₁ b₂, program.run noStrings fortyCalls = some s ∧
    s 0 = some b₁ ∧ s 1 = some b₂ ∧ b₁.words = [0x1ff, 0] ∧ b₂.words = [0xfffffffc, 3] ∧
    bitEqual b₁ b₂ = some (decide (∀ i < b₁.bits, bitTest b₁ i = bitTest b₂ i)) ∧
    bitSuperSet b₁ b₂ =
      some (decide (∀ i < b₁.bits, bitTest b₁ i = true → bitTest b₂ i = true)) := by
  obtain ⟨s, hs⟩ := isSome_iff_exists.1 (by decide : (program.run noStrings fortyCalls).isSome)
  have hx : (program.run noStrings fortyCalls).bind (· 0) = some ⟨40, [0x1ff, 0], rfl, by decide⟩ := by
    decide
  have hy : (program.run noStrings fortyCalls).bind (· 1) = some ⟨40, [0xfffffffc, 3], rfl, by decide⟩ := by decide
  rw [hs] at hx hy
  exact ⟨s, _, _, hs, hx, hy, rfl, rfl, bitmaps_extensional
    (Machine.Reach.of_run fortyCalls .start (by decide) hs) hx hy rfl (by decide)⟩

/-- **Bits that are not valid are compared.**  Both strings have one valid bit and it is set; one got
    it from `bit_not`, which also set the 31 bits behind it. -/
theorem complement_not_equal :
    (program.run noStrings [.alloc 0 1, .not 0, .alloc 1 1, .set 1 0]).bind (fun s =>
      (s 0).bind fun b₁ => (s 1).map fun b₂ => (b₁.bits, b₂.bits, bitTest b₁ 0, bitTest b₂ 0,
        bitEqual b₁ b₂, bitSuperSet b₁ b₂)) =
    some (1, 1, true, true, some false, some false) := by
  rfl

end Slurmpp.Bitstring
