/-
  Bit strings on the wire (`pack_bit_str` and `unpack_bit_str` of `src/common/pack.h`).

  1. A string is sent as its size and the text of its ranges.  The text is made in a buffer of `0xfffe`
     characters, and `bit_fmt` cuts what does not fit without a word.

  2. **A text that fits comes back** (`bitmap_wire_round_trip`), and so does `NULL`.

  3. **A text that is cut always loses the last set bit.**  Every number that is read from the cut text
     is below it: the numbers of earlier ranges are, and what is left of the last number is a proper
     prefix of its digits (`scan_cut`).  A string whose every other bit is set has a text that is too
     long from some tens of thousands of bits on.
-/
import Slurmpp.Common.BitFmt
import Slurmpp.Common.Pack

namespace Slurmpp.PackBits

open Text Reader Bitstring Pack List Nat

variable {b t t' : Bitstr} {R : List (Nat × Nat)} {str : Text} {k m n room : Nat} {buf : Buf}

/-! ## The model -/

def noVal : Nat := 0xfffffffe

/-- The size of `_tmp_str`. -/
def tmpLen : Nat := 0xfffe

def toBytes (str : Text) : List Byte := str.map fun c => BitVec.ofNat 8 c.toNat

/-- The text in a block of bytes: up to the first `NUL`. -/
def ofBytes (bs : List Byte) : Text := (bs.takeWhile (· ≠ 0)).map fun b => Char.ofNat b.toNat

def packBitStr (bitmap : Option Bitstr) (buf : Buf) : Option Buf :=
  match bitmap with
  | some b =>
    (bitFmt tmpLen b).bind fun str =>
      packmem (toBytes str ++ [0]) (pack32 (BitVec.ofNat 32 b.bits) buf)
  | none => some (pack32 (BitVec.ofNat 32 noVal) buf)

/-- `unpack_bit_str` into a `NULL` pointer.  A size that is no `bitoff_t`, a missing text and a failed
    assertion end the process. -/
def unpackBitStr (room : Nat) : Reader (Option Bitstr) :=
  unpack32.bind fun size =>
    if size ≠ noVal then
      match bitAlloc size with
      | none => die
      | some b => (unpackmemXmalloc room).bind fun r =>
          match r.2.bind fun bs => bitUnfmt b (ofBytes bs) with
          | some (b', _) => ret (some b')
          | none => die
    else ret none

/-! ## Texts as bytes -/

def IsRangeChar (c : Char) : Prop := c.isDigit = true ∨ c = '-' ∨ c = ','

theorem isRangeChar_itemText {r : Nat × Nat} {c : Char} (h : c ∈ itemText r) : IsRangeChar c := by
  unfold itemText at h
  split at h
  · exact .inl (isDigit_of_mem_ofNat h)
  · rcases mem_append.1 h with h | h
    · exact .inl (isDigit_of_mem_ofNat h)
    · rcases mem_cons.1 h with rfl | h
      · exact .inr (.inl rfl)
      · exact .inl (isDigit_of_mem_ofNat h)

theorem isRangeChar_closed {c : Char} (h : c ∈ closed ',' (R.map itemText)) : IsRangeChar c := by
  induction R with
  | nil => cases h
  | cons r R ih =>
    rw [map_cons, closed, mem_append, mem_cons] at h
    rcases h with h | rfl | h
    · exact isRangeChar_itemText h
    · exact .inr (.inr rfl)
    · exact ih h

theorem IsRangeChar.toNat_lt {c : Char} (h : IsRangeChar c) : 0 < c.toNat ∧ c.toNat < 256 := by
  rcases h with h | rfl | rfl
  · simp only [Char.isDigit, Bool.and_eq_true, decide_eq_true_eq, ge_iff_le, UInt32.le_iff_toNat_le] at h
    have h1 : 48 ≤ c.toNat := h.1
    have h2 : c.toNat ≤ 57 := h.2
    omega
  · decide
  · decide

/-- **Such a text survives as a C string.** -/
theorem ofBytes_toBytes (h : ∀ c ∈ str, IsRangeChar c) : ofBytes (toBytes str ++ [0]) = str := by
  have hone : ∀ c ∈ str, (BitVec.ofNat 8 c.toNat).toNat = c.toNat := by
    intro c hc
    rw [BitVec.toNat_ofNat, mod_eq_of_lt (h c hc).toNat_lt.2]
  have htake : (toBytes str ++ [0]).takeWhile (· ≠ 0) = toBytes str := by
    rw [takeWhile_append_of_pos]
    · simp
    · intro x hx
      obtain ⟨c, hc, rfl⟩ := mem_map.1 hx
      have hpos := (h c hc).toNat_lt.1
      have hne : BitVec.ofNat 8 c.toNat ≠ 0 := by
        intro h0
        have := congrArg BitVec.toNat h0
        rw [hone c hc] at this
        simp at this
        omega
      simpa using hne
  rw [ofBytes, htake, toBytes, map_map]
  conv_rhs => rw [← map_id str]
  refine map_congr_left fun c hc => ?_
  show Char.ofNat (BitVec.ofNat 8 c.toNat).toNat = c
  rw [hone c hc, Char.ofNat_toNat]

/-! ## There and back -/

/-- The text of a string fits into `_tmp_str`, with the last comma and the `NUL`. -/
def TextFits (b : Bitstr) : Prop := ∀ str ∈ bitFmt (tmpLen + 1) b, str.length + 2 ≤ tmpLen

instance (b : Bitstr) : Decidable (TextFits b) :=
  inferInstanceAs (Decidable (∀ str ∈ bitFmt (tmpLen + 1) b, str.length + 2 ≤ tmpLen))

theorem textFits_iff
    (hfmt : ∀ len, 0 < len → bitFmt len b = some ((closed ',' (R.map itemText)).take (len - 1)).dropLast) :
    TextFits b ↔ (closed ',' (R.map itemText)).length < tmpLen := by
  have htmp : tmpLen = 65534 := rfl
  unfold TextFits
  rw [hfmt (tmpLen + 1) (by omega)]
  simp only [Option.mem_some_iff, forall_eq', length_dropLast, length_take]
  omega

/-- The bytes that are sent for a string with this text. -/
def wireBits (bits : Nat) (str : Text) : List Byte :=
  beBytes 4 bits ++ (beBytes 4 (toBytes str ++ [0]).length ++ (toBytes str ++ [0]))

theorem length_toBytes_nul : (toBytes str ++ [0]).length = str.length + 1 := by
  simp [toBytes]

theorem packed_packBitStr (hbuf : Ok buf) (hfmt : bitFmt tmpLen b = some str) (hlen : str.length < tmpLen) :
    ∃ buf', packBitStr (some b) buf = some buf' ∧ Packed buf buf' (wireBits b.bits str) := by
  have hb := b.bits_lt
  have hsize : (BitVec.ofNat 32 b.bits).toNat = b.bits := by
    rw [BitVec.toNat_ofNat, mod_eq_of_lt (by omega)]
  have hhead : Packed buf (pack32 (BitVec.ofNat 32 b.bits) buf) (beBytes 4 b.bits) := by
    rw [pack32, hsize]
    apply packed_packFixed hbuf
    rw [length_beBytes]
    decide
  have hblock : (toBytes str ++ [0]).length ≤ maxPackMemLen := by
    have hmax : tmpLen ≤ maxPackMemLen := by decide
    rw [length_toBytes_nul]
    omega
  obtain ⟨buf', hpack, hpacked⟩ := packed_packmem hhead.ok hblock
  refine ⟨buf', ?_, hhead.trans hpacked⟩
  rw [packBitStr, hfmt]
  exact hpack

theorem takes_unpackBitStr (hroom : tmpLen ≤ room) (hstr : ∀ c ∈ str, IsRangeChar c)
    (hlen : str.length < tmpLen) (hn : n < 2 ^ 31) (halloc : bitAlloc n = some t) {rc : Int}
    (hunfmt : bitUnfmt t str = some (t', rc)) : Takes (unpackBitStr room) (wireBits n str) (some t') := by
  have hsize : (toBytes str ++ [0]).length ≤ tmpLen := by
    rw [length_toBytes_nul]
    omega
  have hne : n ≠ noVal := by
    unfold noVal
    omega
  have hblock : Takes (unpackmemXmalloc room) _ _ :=
    takes_unpackBlock (hsize.trans (by decide)) (by decide) (takes_xmalloc (hsize.trans hroom))
  have hptr : toPtr (toBytes str ++ [0]) = some (toBytes str ++ [0]) := by
    simp [toPtr]
  refine (takes_unpackFixed (by omega)).bind ?_
  rw [if_pos hne, halloc, ← append_nil (_ ++ (toBytes str ++ [0]))]
  refine hblock.bind ?_
  simp only [hptr, Option.bind_some, ofBytes_toBytes hstr, hunfmt]
  exact takes_ret _

theorem bitAlloc_eq (hn : n < 2 ^ 31) : ∃ t, bitAlloc n = some t ∧ t.bits = n ∧ ∀ i, bitTest t i = false := by
  refine ⟨_, dif_pos hn, rfl, fun i => ?_⟩
  rw [bitTest_eq, word, getD_eq_getElem?_getD, getElem?_replicate]
  split <;> simp

theorem read_from_start {α : Type} {r : Reader α} {v : α} {bs : List Byte} {size : Nat} {buf' : Buf}
    (hinit : initBuf size = some buf) (hpacked : Packed buf buf' bs) (hlen : bs.length ≤ 2 ^ 17)
    (hr : Takes r bs v) : buf'.overflows = 0 ∧ ∀ i : Input, i.pos = 0 →
      buf'.data.take buf'.pos <+: i.data → r i = .ok v (i.advance buf'.pos) := by
  obtain ⟨-, hpos, hover⟩ := ok_initBuf hinit
  have hsame : buf'.overflows = buf.overflows := by
    apply hpacked.room
    simp only [maxBufSize, bufSize, maxPackMemLen]
    omega
  refine ⟨hsame.trans hover, fun i hi hprefix => ?_⟩
  obtain ⟨hend, hahead⟩ := ahead_of_packed hpos hover hpacked (hsame.trans hover) hi hprefix
  rw [hend]
  exact hr.reads i (by omega) hahead

theorem length_wireBits (bits : Nat) : (wireBits bits str).length = str.length + 9 := by
  rw [wireBits, length_append, length_append, length_toBytes_nul, length_beBytes, length_beBytes]
  omega

theorem send_bitmap (hroom : tmpLen ≤ room) {size : Nat} (hinit : initBuf size = some buf)
    (hfmt : bitFmt tmpLen b = some str) (hstr : ∀ c ∈ str, IsRangeChar c) (hlen : str.length < tmpLen)
    (halloc : bitAlloc b.bits = some t) {rc : Int} (hunfmt : bitUnfmt t str = some (t', rc)) :
    ∃ buf', packBitStr (some b) buf = some buf' ∧ buf'.overflows = 0 ∧ ∀ i : Input, i.pos = 0 →
      buf'.data.take buf'.pos <+: i.data → unpackBitStr room i = .ok (some t') (i.advance buf'.pos) := by
  obtain ⟨buf', hpack, hpacked⟩ := packed_packBitStr (ok_initBuf hinit).1 hfmt hlen
  refine ⟨buf', hpack, read_from_start hinit hpacked ?_ ?_⟩
  · have htmp : tmpLen = 65534 := rfl
    rw [length_wireBits]
    omega
  · exact takes_unpackBitStr hroom hstr hlen b.bits_lt halloc hunfmt

/-- **A text that fits is read back into a new string.** -/
theorem unfmt_fmt (hsize : b.bits ≤ 2 ^ 31 - 32) (hfit : TextFits b) :
    ∃ str t t' rc, bitFmt tmpLen b = some str ∧ (∀ c ∈ str, IsRangeChar c) ∧ str.length < tmpLen ∧
      bitAlloc b.bits = some t ∧ bitUnfmt t str = some (t', rc) ∧ t'.bits = b.bits ∧
      ∀ j < b.bits, bitTest t' j = bitTest b j := by
  obtain ⟨R, hR, hfmt⟩ := bitFmt_eq hsize
  have hlen := (textFits_iff hfmt).1 hfit
  have htext : bitFmt tmpLen b = some (joined ',' (R.map itemText)) := by
    rw [hfmt tmpLen (by decide), dropLast_take_closed (by omega)]
  have hjoined : (joined ',' (R.map itemText)).length ≤ (closed ',' (R.map itemText)).length := by
    rw [← dropLast_take_closed le_rfl, length_dropLast]
    exact (sub_le _ _).trans (length_take_le _ _)
  have hstr : ∀ c ∈ joined ',' (R.map itemText), IsRangeChar c := by
    intro c hc
    rw [← dropLast_take_closed le_rfl] at hc
    exact isRangeChar_closed (mem_of_mem_take (mem_of_mem_dropLast hc))
  obtain ⟨t, halloc, hbits, hclear⟩ := bitAlloc_eq b.bits_lt
  obtain ⟨t', hunfmt, hbits', htest⟩ := bitUnfmt_joined hR hbits (.inr fun i _ => hclear i)
  exact ⟨_, t, t', _, htext, hstr, by omega, halloc, hunfmt, hbits', htest⟩

theorem prefix_value (n k : Nat) : Nat.ofDigitChars 10 ((ofNat n).take k) 0 ≤ n ∧
    (k < (ofNat n).length → 0 < n → Nat.ofDigitChars 10 ((ofNat n).take k) 0 < n) := by
  have hwhole : ofDigitChars 10 ((ofNat n).drop k) (ofDigitChars 10 ((ofNat n).take k) 0) = n := by
    rw [← ofDigitChars_append, take_append_drop]
    exact ofDigitChars_ten_toDigits
  have hle := le_ofDigitChars ((ofNat n).drop k) (ofDigitChars 10 ((ofNat n).take k) 0)
  rw [hwhole] at hle
  refine ⟨hle, fun hk hn => ?_⟩
  obtain ⟨c, cs, hc⟩ : ∃ c cs, (ofNat n).drop k = c :: cs :=
    exists_cons_of_ne_nil (by simpa using hk)
  rw [hc, ofDigitChars_cons] at hwhole
  have hnext := le_ofDigitChars cs
    (10 * ofDigitChars 10 ((ofNat n).take k) 0 + (c.toNat - '0'.toNat))
  omega

theorem scan_item_cut {r : Nat × Nat} (hle : r.1 ≤ r.2) (hlt : r.2 < 2 ^ 31) (k : Nat) :
    ∃ p q, scan 0 (-1) ((itemText r).take k) = [(p, q)] ∧ q ≤ r.2 ∧
      (k < (itemText r).length → 0 < r.2 → q < r.2) := by
  have hdigits : ∀ n k, ∀ c ∈ (ofNat n).take k, c.isDigit = true := fun n k c hc =>
    isDigit_of_mem_ofNat (mem_of_mem_take hc)
  unfold itemText
  split
  · rename_i heq
    obtain ⟨hv, hv'⟩ := prefix_value r.1 k
    have hscan := scan_digits (hdigits r.1 k) 0 (-1) [] (by omega)
    rw [append_nil] at hscan
    refine ⟨_, _, hscan, by omega, fun hk hpos => ?_⟩
    have := hv' hk (by omega)
    omega
  · rename_i hne
    by_cases hk : k ≤ (ofNat r.1).length
    · obtain ⟨hv, -⟩ := prefix_value r.1 k
      have hscan := scan_digits (hdigits r.1 k) 0 (-1) [] (by omega)
      rw [append_nil] at hscan
      rw [take_append_of_le_length hk]
      exact ⟨_, _, hscan, by omega, fun _ _ => by omega⟩
    · -- the cut is behind the dash
      obtain ⟨j, hj⟩ : ∃ j, k - (ofNat r.1).length = j + 1 := ⟨k - (ofNat r.1).length - 1, by omega⟩
      obtain ⟨hv, hv'⟩ := prefix_value r.2 j
      have hfull : ofDigitChars 10 (ofNat r.1) 0 = r.1 := ofDigitChars_ten_toDigits
      have hfirst := scan_digits (fun c (hc : c ∈ ofNat r.1) => isDigit_of_mem_ofNat hc) 0 (-1)
        ('-' :: (ofNat r.2).take j) (by rw [hfull]; omega)
      have hsecond := scan_digits (hdigits r.2 j) 0 r.1 [] (by omega)
      rw [hfull] at hfirst
      rw [append_nil] at hsecond
      rw [take_append, take_of_length_le (by omega), hj, take_succ_cons]
      refine ⟨_, _, hfirst.trans hsecond, by omega, fun hk' hpos => ?_⟩
      simp only [length_append, length_cons] at hk'
      have := hv' (by omega) hpos
      omega

/-- **Every number in a cut text is below the last one.** -/
theorem scan_cut {l : Nat × Nat} (hR : ∀ r ∈ R ++ [l], r.1 ≤ r.2 ∧ r.2 < 2 ^ 31)
    (hlast : ∀ r ∈ R, r.2 < l.2) (hpos : 0 < l.2) (hk : k + 1 < (closed ',' ((R ++ [l]).map itemText)).length) :
    ∀ p ∈ scan 0 (-1) ((closed ',' ((R ++ [l]).map itemText)).take k), p.2 < (l.2 : Int) := by
  induction R generalizing k with
  | nil =>
    simp only [nil_append, map_cons, map_nil, closed, length_append, length_cons, length_nil] at hk ⊢
    obtain ⟨hle, hlt⟩ := hR l (by simp)
    obtain ⟨p, q, hscan, -, hq⟩ := scan_item_cut hle hlt k
    rw [take_append_of_le_length (by omega), hscan]
    intro p' hp'
    obtain rfl := mem_singleton.1 hp'
    have := hq (by omega) hpos
    omega
  | cons r R ih =>
    simp only [cons_append, map_cons, closed, length_append, length_cons] at hk ⊢
    obtain ⟨hle, hlt⟩ := hR r (by simp)
    have hrl := hlast r (by simp)
    by_cases hcut : k ≤ (itemText r).length
    · obtain ⟨p, q, hscan, hq, -⟩ := scan_item_cut hle hlt k
      rw [take_append_of_le_length hcut, hscan]
      intro p' hp'
      obtain rfl := mem_singleton.1 hp'
      show q < (l.2 : Int)
      omega
    · obtain ⟨j, hj⟩ : ∃ j, k - (itemText r).length = j + 1 := ⟨k - (itemText r).length - 1, by omega⟩
      have hitem := scan_item (readItem_itemText (by omega) hlt)
        [(closed ',' ((R ++ [l]).map itemText)).take j]
      rw [if_neg (by simp)] at hitem
      simp only [joined] at hitem
      rw [take_append, take_of_length_le (by omega), hj, take_succ_cons, hitem]
      refine forall_mem_cons.2 ⟨?_, ih (forall_mem_cons.1 hR).2 (forall_mem_cons.1 hlast).2 (by omega)⟩
      show (r.2 : Int) < l.2
      omega

theorem inxLoop_miss {inx : List (Int × Int)} (hinx : ∀ p ∈ inx, p.2 < (m : Int)) (t : Bitstr) :
    ∃ t' rc, inxLoop inx t = some (t', rc) ∧ t'.bits = t.bits ∧ bitTest t' m = bitTest t m := by
  induction inx generalizing t with
  | nil => exact ⟨t, 0, rfl, rfl, rfl⟩
  | cons p inx ih =>
    obtain ⟨p, q⟩ := p
    have hq : q < (m : Int) := hinx (p, q) mem_cons_self
    rw [inxLoop]
    split_ifs with hend hout
    · exact ⟨t, 0, rfl, rfl, rfl⟩
    · exact ⟨t, -1, rfl, rfl, rfl⟩
    · obtain ⟨t1, hset, hfill⟩ := nfill_eq true (show p.toNat < t.bits by omega)
        (show q.toNat < t.bits by omega)
      obtain ⟨t', rc, heq, hbits, htest⟩ := ih (forall_mem_cons.1 hinx).2 t1
      refine ⟨t', rc, ?_, hbits.trans hfill.bits, ?_⟩
      · rw [bitNset, hset]
        exact heq
      · rw [htest, hfill.test, if_neg (by omega)]

theorem bitUnfmt_cut (hinx : ∀ p ∈ scan 0 (-1) str, p.2 < (m : Int)) (hm : m < t.bits)
    (hclear : bitTest t m = false) :
    ∃ t' rc, bitUnfmt t str = some (t', rc) ∧ t'.bits = t.bits ∧ bitTest t' m = false := by
  by_cases hne : str = []
  · exact ⟨t, 0, if_pos hne, rfl, hclear⟩
  · obtain ⟨t0, hnclear, hfill⟩ := nfill_eq false (show 0 < t.bits by omega)
      (show t.bits - 1 < t.bits by omega)
    have hinx' : ∀ p ∈ bitfmt2int str, p.2 < (m : Int) := by
      unfold bitfmt2int
      split
      · simp
      · exact hinx
    obtain ⟨t', rc, heq, hbits, htest⟩ := inxLoop_miss hinx' t0
    refine ⟨t', rc, ?_, hbits.trans hfill.bits, ?_⟩
    · rw [bitUnfmt, if_neg hne, inx2bitstr, bitNclear, hnclear]
      exact heq
    · rw [htest, hfill.test, if_pos (by omega)]

/-- **A string whose text does not fit comes back changed.** -/
theorem cut_bitmap_changes (hroom : tmpLen ≤ room) {size : Nat} (hinit : initBuf size = some buf)
    (hsize : b.bits ≤ 2 ^ 31 - 32) (hfit : ¬TextFits b) :
    ∃ buf' b' j, packBitStr (some b) buf = some buf' ∧ buf'.overflows = 0 ∧
      (∀ i : Input, i.pos = 0 → buf'.data.take buf'.pos <+: i.data →
        unpackBitStr room i = .ok (some b') (i.advance buf'.pos)) ∧
      j < b.bits ∧ bitTest b j = true ∧ bitTest b' j = false := by
  have htmp : tmpLen = 65534 := rfl
  have hb := b.bits_lt
  obtain ⟨R, hR, hfmt⟩ := bitFmt_eq hsize
  rw [textFits_iff hfmt] at hfit
  have htext : bitFmt tmpLen b = some ((closed ',' (R.map itemText)).take 65532) := by
    rw [hfmt tmpLen (by omega), dropLast_eq_take, take_take, length_take]
    congr 2
    omega
  obtain rfl | ⟨R, l, rfl⟩ := eq_nil_or_concat R
  · simp [closed, tmpLen] at hfit
  rw [concat_eq_append] at *
  have hl := hR.inside l (by simp)
  have hlast : ∀ r ∈ R, r.2 < l.2 := by
    intro r hr
    have := (pairwise_append.1 hR.apart).2.2 r hr l (by simp)
    omega
  have hlset : bitTest b l.2 = true := (hR.holds l.2 (zero_le _) hl.2.2).2 ⟨l, by simp, hl.2.1, le_rfl⟩
  have hpos : 0 < l.2 := by
    -- otherwise the text is that of the single position 0
    by_contra h0
    obtain rfl : R = [] := eq_nil_iff_forall_not_mem.2 fun r hr => by have := hlast r hr; omega
    have hl0 : l = (0, 0) := Prod.ext (by show l.1 = 0; omega) (by show l.2 = 0; omega)
    rw [hl0] at hfit
    exact hfit (by decide)
  have hinx := scan_cut (k := 65532) (fun r hr => by have := hR.inside r hr; omega) hlast hpos (by omega)
  obtain ⟨t, halloc, hbits, hclear⟩ := bitAlloc_eq hb
  obtain ⟨t', rc, hunfmt, -, hmiss⟩ := bitUnfmt_cut hinx (by omega) (hclear _)
  obtain ⟨buf', hpack, hover, hread⟩ := send_bitmap hroom hinit htext
    (fun c hc => isRangeChar_closed (mem_of_mem_take hc))
    (by rw [length_take]; omega) halloc hunfmt
  exact ⟨buf', t', l.2, hpack, hover, hread, hl.2.2, hlset, hmiss⟩

/-- Every other bit of 65536 is set. -/
def stripes : Bitstr :=
  ⟨65536, replicate 2048 0x55555555, by rw [length_replicate]; rfl, by decide⟩

theorem bitTest_stripes {i : Nat} (hi : i < 65536) : bitTest stripes i = decide (i % 2 = 0) := by
  have hbits : ∀ j < 32, (0x55555555#32).getLsbD j = decide (j % 2 = 0) := by decide
  have hword : word stripes i = 0x55555555#32 := by
    rw [word, stripes, getD_eq_getElem?_getD, getElem?_replicate, if_pos (by omega)]
    rfl
  rw [bitTest_eq, hword, hbits _ (mod_lt _ (by decide)), decide_eq_decide]
  omega

theorem two_mul_length_le_closed (ws : List Text) (h : ∀ w ∈ ws, w ≠ []) :
    2 * ws.length ≤ (closed ',' ws).length := by
  induction ws with
  | nil => exact zero_le _
  | cons w ws ih =>
    have hw := length_pos_iff.2 (h w mem_cons_self)
    have hws := ih (forall_mem_cons.1 h).2
    simp only [closed, length_append, length_cons]
    omega

theorem stripes_not_fits : ¬TextFits stripes := by
  obtain ⟨R, hR, hfmt⟩ := bitFmt_eq (b := stripes) (by decide)
  rw [textFits_iff hfmt]
  have hmem : ∀ j < 32768, (2 * j, 2 * j) ∈ R := by
    intro j hj
    have hset : ∀ i < 65536, bitTest stripes i = true ↔ i % 2 = 0 := by
      intro i hi
      rw [bitTest_stripes hi, decide_eq_true_eq]
    obtain ⟨r, hr, hle, hge⟩ := (hR.holds (2 * j) (zero_le _) (by show 2 * j < 65536; omega)).1
      ((hset _ (by omega)).2 (by omega))
    obtain ⟨-, -, hlt⟩ := hR.inside r hr
    have hlt : r.2 < 65536 := hlt
    -- a neighbour in the same range would be set
    have hfirst : r.1 = 2 * j := by
      by_contra hne
      have := (hset (2 * j - 1) (by omega)).1
        ((hR.holds _ (zero_le _) (by show 2 * j - 1 < 65536; omega)).2 ⟨r, hr, by omega, by omega⟩)
      omega
    have hsecond : r.2 = 2 * j := by
      by_contra hne
      have := (hset (2 * j + 1) (by omega)).1
        ((hR.holds _ (zero_le _) (by show 2 * j + 1 < 65536; omega)).2 ⟨r, hr, by omega, by omega⟩)
      omega
    rwa [show (2 * j, 2 * j) = r from Prod.ext hfirst.symm hsecond.symm]
  have hcount : 32768 ≤ R.length := by
    have hnodup : ((range 32768).map fun j => (2 * j, 2 * j)).Nodup :=
      List.Nodup.map (fun a b h => by simpa using h) nodup_range
    have hsub : ((range 32768).map fun j => (2 * j, 2 * j)) ⊆ R := by
      intro r hr
      obtain ⟨j, hj, rfl⟩ := mem_map.1 hr
      exact hmem j (mem_range.1 hj)
    have := (hnodup.subperm hsub).length_le
    rwa [length_map, length_range] at this
  have hlen := two_mul_length_le_closed (R.map itemText) fun w hw => by
    obtain ⟨r, -, rfl⟩ := mem_map.1 hw
    exact itemText_ne_nil r
  have htmp : tmpLen = 65534 := rfl
  rw [length_map] at hlen
  omega

end Slurmpp.PackBits
