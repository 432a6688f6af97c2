/-
  Bit strings as texts of ranges (`src/common/bitstring.c`), such as `0-30,45,50-60`.

  1. **Writing** — `bit_fmt` writes each maximal range of set bits with a comma behind it and cuts off the last
     comma.  Every `snprintf` may be cut short; cutting each piece is cutting the whole (`appendFmt_take`).
  2. **Reading** — `bitfmt2int` is an automaton with two registers; `inx2bitstr` fills the ranges it found.
  3. **What a text means** — on lists of numbers and pairs the automaton reads the meaning (`bitfmt2int_eq`);
     elsewhere it reads SOMETHING.  And `bit_unfmt` does NOT clear the string when the text is empty.
-/
import Slurmpp.Lib.Text
import Slurmpp.Common.Bitstring

namespace Slurmpp.Bitstring

open Text List Option

variable {b t t' : Bitstr} {n bit lo : Nat} {R : List (Nat × Nat)} {str : Text}

/-! ## Writing -/

/-- The text of a range, without the comma: `BITSTR_SINGLE_FMT` or `BITSTR_RANGE_FMT`. -/
def itemText (r : Nat × Nat) : Text :=
  if r.2 = r.1 then ofNat r.1 else ofNat r.1 ++ '-' :: ofNat r.2

/-- `snprintf(str + strlen(str), len - strlen(str), ...)` -/
def appendFmt (len : Nat) (str piece : Text) : Text := str ++ piece.take (len - str.length - 1)

/-- `while (bit+1 < _bitstr_bits(b) && bit_test(b, bit+1)) bit++` -/
def runEnd (b : Bitstr) : Nat → Nat → Nat
  | 0, bit => bit
  | n + 1, bit => if bit + 1 < b.bits ∧ bitTest b (bit + 1) = true then runEnd b n (bit + 1) else bit

/-- The loop of `bit_fmt` at position `bit`, with `n` steps to go: the text and the count of set bits. -/
def fmtLoop (len : Nat) (b : Bitstr) : Nat → Nat → Text → Nat → Option (Text × Nat)
  | 0, _, str, count => some (str, count)
  | n + 1, bit, str, count =>
    if bit < b.bits then
      if word b bit = 0 then
        if bit + 32 < 2 ^ 31 then fmtLoop len b n (bit + 32) str count else none
      else if bitTest b bit then
        let last := runEnd b (b.bits - bit) bit
        fmtLoop len b n (last + 1) (appendFmt len str (itemText (bit, last) ++ [',']))
          (count + (last - bit + 1))
      else fmtLoop len b n (bit + 1) str count
    else some (str, count)

/-- `bit_fmt` into a buffer of `len` characters. -/
def bitFmt (len : Nat) (b : Bitstr) : Option Text :=
  if 0 < len then
    (fmtLoop len b b.bits 0 [] 0).map fun (str, count) => if count > 0 then str.dropLast else str
  else none

/-- The ranges `R` are what the string holds from `lo` on. -/
structure Cover (b : Bitstr) (lo : Nat) (R : List (Nat × Nat)) : Prop where
  inside : ∀ r ∈ R, lo ≤ r.1 ∧ r.1 ≤ r.2 ∧ r.2 < b.bits
  holds : ∀ i, lo ≤ i → i < b.bits → (bitTest b i = true ↔ ∃ r ∈ R, r.1 ≤ i ∧ i ≤ r.2)
  apart : R.Pairwise fun r r' => r.2 + 1 < r'.1

theorem appendFmt_take (len : Nat) (full piece : Text) :
    appendFmt len (full.take (len - 1)) piece = (full ++ piece).take (len - 1) := by
  rw [appendFmt, take_append, length_take]
  congr 2
  omega

theorem runEnd_eq (hn : b.bits ≤ bit + n) (hbit : bit < b.bits) : ∃ last, runEnd b n bit = last ∧
    bit ≤ last ∧ last < b.bits ∧ (∀ i, bit < i → i ≤ last → bitTest b i = true) ∧
    (last + 1 < b.bits → bitTest b (last + 1) = false) := by
  induction n generalizing bit with
  | zero => omega
  | succ n ih =>
    rw [runEnd]
    split
    next hgo =>
      obtain ⟨last, heq, hle, hlt, hset, hend⟩ := ih (by omega) hgo.1
      refine ⟨last, heq, by omega, hlt, fun i h1 h2 => ?_, hend⟩
      by_cases hi : i = bit + 1
      · rw [hi, hgo.2]
      · exact hset i (by omega) h2
    next hgo =>
      refine ⟨bit, rfl, le_rfl, hbit, fun i h1 h2 => by omega, fun h => ?_⟩
      rw [← Bool.not_eq_true]
      exact fun ht => hgo ⟨h, ht⟩

theorem Cover.skip {lo' : Nat} (h : Cover b lo' R) (hle : lo ≤ lo')
    (hclear : ∀ i, lo ≤ i → i < lo' → i < b.bits → bitTest b i = false) : Cover b lo R := by
  constructor
  · intro r hr
    have := h.inside r hr
    omega
  · intro i hi hlt
    by_cases hlo : lo' ≤ i
    · exact h.holds i hlo hlt
    · rw [hclear i hi (by omega) hlt]
      constructor
      · intro hf
        cases hf
      · rintro ⟨r, hr, hri⟩
        have := h.inside r hr
        omega
  · exact h.apart

theorem Cover.cons {last : Nat} (h : Cover b (last + 1) R) (hle : bit ≤ last) (hlt : last < b.bits)
    (hset : ∀ i, bit ≤ i → i ≤ last → bitTest b i = true)
    (hend : last + 1 < b.bits → bitTest b (last + 1) = false) : Cover b bit ((bit, last) :: R) := by
  constructor
  · intro r hr
    rcases mem_cons.1 hr with rfl | hr
    · exact ⟨le_rfl, hle, hlt⟩
    · have := h.inside r hr
      omega
  · intro i hi hib
    by_cases hil : i ≤ last
    · exact ⟨fun _ => ⟨_, mem_cons_self, hi, hil⟩, fun _ => hset i hi hil⟩
    · rw [h.holds i (by omega) hib]
      constructor
      · rintro ⟨r, hr, hri⟩
        exact ⟨r, mem_cons_of_mem _ hr, hri⟩
      · rintro ⟨r, hr, hri⟩
        rcases mem_cons.1 hr with rfl | hr
        · exact absurd hri.2 hil
        · exact ⟨r, hr, hri⟩
  · refine pairwise_cons.2 ⟨fun r hr => ?_, h.apart⟩
    -- the next range does not begin right behind this one, because the bit there is clear
    show last + 1 < r.1
    obtain ⟨h1, h2, h3⟩ := h.inside r hr
    by_contra hcon
    have hone : bitTest b (last + 1) = true :=
      (h.holds _ le_rfl (by omega)).2 ⟨r, hr, by omega, by omega⟩
    rw [hend (by omega)] at hone
    cases hone

/-- **The loop writes the ranges**, as far as the buffer goes.  A zero word is only met at its
    beginning, so that a skip never jumps into the next word. -/
theorem fmtLoop_eq (hsize : b.bits ≤ 2 ^ 31 - 32) (hn : b.bits ≤ bit + n)
    (hstart : bit % 32 = 0 ∨ word b bit ≠ 0) : ∃ R, Cover b bit R ∧
      ∀ len (full : Text) count, ∃ count', fmtLoop len b n bit (full.take (len - 1)) count =
          some ((full ++ closed ',' (R.map itemText)).take (len - 1), count') ∧
        (count' = 0 ↔ count = 0 ∧ R = []) := by
  induction n generalizing bit with
  | zero =>
    refine ⟨[], ⟨by simp, fun i h1 h2 => by omega, .nil⟩, fun len full count => ⟨count, ?_, by simp⟩⟩
    rw [fmtLoop, map_nil, closed, append_nil]
  | succ n ih =>
    by_cases hlt : bit < b.bits
    · by_cases hw : word b bit = 0
      · have hmod : bit % 32 = 0 := hstart.resolve_right (by simp [hw])
        obtain ⟨R, hcov, hloop⟩ := ih (show b.bits ≤ bit + 32 + n by omega) (.inl (by omega))
        refine ⟨R, hcov.skip (by omega) ?_, fun len full count => ?_⟩
        · intro i h1 h2 _
          exact bitTest_of_word ((word_congr (by omega)).trans hw)
        · rw [fmtLoop, if_pos hlt, if_pos hw, if_pos (by omega)]
          exact hloop len full count
      · cases ht : bitTest b bit with
        | true =>
          obtain ⟨last, hlast, hle, hltb, hset, hend⟩ :=
            runEnd_eq (n := b.bits - bit) (by omega) hlt
          have hset' : ∀ i, bit ≤ i → i ≤ last → bitTest b i = true := by
            intro i h1 h2
            rcases Nat.lt_or_eq_of_le h1 with h1 | rfl
            · exact hset i h1 h2
            · exact ht
          have hword : (last + 1) % 32 = 0 ∨ word b (last + 1) ≠ 0 := by
            refine or_iff_not_imp_left.2 fun hborder h0 => ?_
            have hl := hset' last hle le_rfl
            rw [bitTest_of_word ((word_congr (by omega)).trans h0)] at hl
            cases hl
          obtain ⟨R, hcov, hloop⟩ := ih (show b.bits ≤ last + 1 + n by omega) hword
          refine ⟨(bit, last) :: R, hcov.cons hle hltb hset' hend, fun len full count => ?_⟩
          obtain ⟨c, heq, hc⟩ := hloop len (full ++ (itemText (bit, last) ++ [',']))
            (count + (last - bit + 1))
          refine ⟨c, ?_, ?_⟩
          · rw [fmtLoop, if_pos hlt, if_neg hw, if_pos ht]
            simp only [hlast]
            rw [appendFmt_take, heq]
            simp [closed]
          · rw [hc]
            simp
        | false =>
          have hword : (bit + 1) % 32 = 0 ∨ word b (bit + 1) ≠ 0 := by
            refine or_iff_not_imp_left.2 fun hborder => ?_
            rwa [show word b (bit + 1) = word b bit from word_congr (by omega)]
          obtain ⟨R, hcov, hloop⟩ := ih (show b.bits ≤ bit + 1 + n by omega) hword
          refine ⟨R, hcov.skip (by omega) ?_, fun len full count => ?_⟩
          · intro i h1 h2 _
            rw [show i = bit by omega, ht]
          · rw [fmtLoop, if_pos hlt, if_neg hw, if_neg (by simp [ht])]
            exact hloop len full count
    · refine ⟨[], ⟨by simp, fun i h1 h2 => by omega, .nil⟩, fun len full count => ⟨count, ?_, by simp⟩⟩
      rw [fmtLoop, if_neg hlt, map_nil, closed, append_nil]

/-- **What `bit_fmt` writes**: the ranges of the string, cut to the buffer, without the last
    character. -/
theorem bitFmt_eq (hsize : b.bits ≤ 2 ^ 31 - 32) : ∃ R, Cover b 0 R ∧ ∀ len, 0 < len →
    bitFmt len b = some ((closed ',' (R.map itemText)).take (len - 1)).dropLast := by
  obtain ⟨R, hcov, hloop⟩ :=
    fmtLoop_eq (n := b.bits) hsize (by omega) (.inl (Nat.zero_mod 32))
  refine ⟨R, hcov, fun len hlen => ?_⟩
  obtain ⟨c, heq, hc⟩ := hloop len [] 0
  rw [take_nil, nil_append] at heq
  rw [bitFmt, if_pos hlen, heq, map_some]
  by_cases hR : R = []
  · simp [hR, closed]
  · have hpos : 0 < c := by
      rw [Nat.pos_iff_ne_zero, ne_eq, hc]
      exact fun h => hR h.2
    simp [hpos]

theorem closed_eq_joined {ws : List Text} (h : ws ≠ []) : closed ',' ws = joined ',' ws ++ [','] := by
  induction ws with
  | nil => exact absurd rfl h
  | cons w ws ih =>
    cases ws with
    | nil => rfl
    | cons v ws => rw [closed, ih (by simp), joined, append_assoc, cons_append]

theorem dropLast_take_closed {ws : List Text} {k : Nat} (hk : (closed ',' ws).length ≤ k) :
    ((closed ',' ws).take k).dropLast = joined ',' ws := by
  rw [take_of_length_le hk]
  by_cases h : ws = []
  · subst h
    rfl
  · rw [closed_eq_joined h, dropLast_concat]

/-! ## Reading -/

/-- What an `int` makes of a number. -/
def toInt32 (x : Int) : Int := x.bmod (2 ^ 32)

/-- `bitfmt2int` behind the first character: `sum` and `start_val`, and the characters to come.  The
    pairs are what `bit_int_ptr` gets, without the final `-1`. -/
def scan : Int → Int → Text → List (Int × Int)
  | sum, start, [] => [(if start = -1 then sum else start, sum)]
  | sum, start, c :: cs =>
    if c.isDigit then scan (toInt32 (sum * 10 + (c.toNat - '0'.toNat : Nat))) start cs
    else if c = '-' then scan 0 sum cs
    else if c = ',' then (if start = -1 then sum else start, sum) :: scan 0 (-1) cs
    else scan sum start cs

/-- `bitfmt2int` of a text that is not empty: a comma in the first place ends the loop. -/
def bitfmt2int (str : Text) : List (Int × Int) :=
  if str.head? = some ',' then [] else scan 0 (-1) str

/-- The loop of `inx2bitstr`: the string and the return code. -/
def inxLoop : List (Int × Int) → Bitstr → Option (Bitstr × Int)
  | [], b => some (b, 0)
  | (p, q) :: inx, b =>
    if p = -1 then some (b, 0)
    else if p < 0 ∨ p ≥ b.bits ∨ q < 0 ∨ q ≥ b.bits then some (b, -1)
    else (bitNset b p.toNat q.toNat).bind (inxLoop inx)

def inx2bitstr (b : Bitstr) (inx : List (Int × Int)) : Option (Bitstr × Int) :=
  (bitNclear b 0 (b.bits - 1)).bind (inxLoop inx)

def bitUnfmt (b : Bitstr) (str : Text) : Option (Bitstr × Int) :=
  if str = [] then some (b, 0) else inx2bitstr b (bitfmt2int str)

/-! ## What a text means -/

/-- The value of a decimal number that an `int` can hold. -/
def number? (w : Text) : Option Nat :=
  if w ≠ [] ∧ w.all Char.isDigit ∧ Nat.ofDigitChars 10 w 0 < 2 ^ 31 then some (Nat.ofDigitChars 10 w 0)
  else none

/-- One number, or two with a dash between them. -/
def readItem (w : Text) : Option (Nat × Nat) :=
  match w.splitOn '-' with
  | [a] => (number? a).map fun v => (v, v)
  | [a, c] => (number? a).bind fun s => (number? c).map fun e => (s, e)
  | _ => none

/-- The ranges a text names. -/
def meaning (str : Text) : Option (List (Nat × Nat)) :=
  if str = [] then some [] else (str.splitOn ',').mapM readItem

theorem number?_eq_some {w : Text} {v : Nat} (h : number? w = some v) :
    w ≠ [] ∧ (∀ c ∈ w, c.isDigit = true) ∧ Nat.ofDigitChars 10 w 0 = v ∧ v < 2 ^ 31 := by
  obtain ⟨⟨hne, hdigits, hlt⟩, h⟩ := Option.ite_none_right_eq_some.1 h
  cases h
  exact ⟨hne, all_eq_true.1 hdigits, rfl, hlt⟩

theorem number?_ofNat (h : n < 2 ^ 31) : number? (ofNat n) = some n := by
  have hdigits : (ofNat n).all Char.isDigit = true :=
    all_eq_true.2 fun c hc => isDigit_of_mem_ofNat hc
  have hval : Nat.ofDigitChars 10 (ofNat n) 0 = n := Nat.ofDigitChars_ten_toDigits
  rw [number?, hval, if_pos ⟨ofNat_ne_nil n, hdigits, h⟩]

theorem le_ofDigitChars (cs : Text) (x : Nat) : x ≤ Nat.ofDigitChars 10 cs x := by
  induction cs generalizing x with
  | nil => exact le_rfl
  | cons c cs ih =>
    rw [Nat.ofDigitChars_cons]
    have := ih (10 * x + (c.toNat - '0'.toNat))
    omega

theorem scan_digits {ds : Text} (hds : ∀ c ∈ ds, c.isDigit = true) (x : Nat) (start : Int) (rest : Text)
    (hx : Nat.ofDigitChars 10 ds x < 2 ^ 31) :
    scan x start (ds ++ rest) = scan (Nat.ofDigitChars 10 ds x : Nat) start rest := by
  induction ds generalizing x with
  | nil => rfl
  | cons c cs ih =>
    rw [Nat.ofDigitChars_cons] at hx ⊢
    have hlt := le_ofDigitChars cs (10 * x + (c.toNat - '0'.toNat))
    have hwrap : toInt32 ((x : Int) * 10 + (c.toNat - '0'.toNat : Nat)) = (10 * x + (c.toNat - '0'.toNat) : Nat) := by
      generalize c.toNat - '0'.toNat = d at hx hlt ⊢
      rw [toInt32, Int.bmod_eq_of_le] <;> omega
    rw [cons_append, scan, if_pos (hds c mem_cons_self), hwrap]
    exact ih (forall_mem_cons.1 hds).2 _ hx

theorem scan_end (sum start : Int) (rest : List Text) :
    scan sum start (joined ',' ([] :: rest)) = (if start = -1 then sum else start, sum) ::
      (if rest = [] then [] else scan 0 (-1) (joined ',' rest)) := by
  cases rest with
  | nil | cons => simp [joined, scan]

theorem joined_cons_append (w v : Text) (rest : List Text) :
    joined ',' ((w ++ v) :: rest) = w ++ joined ',' (v :: rest) := by
  cases rest with
  | nil => rfl
  | cons u rest => rw [joined, joined, append_assoc]

/-- **An item is read as its range.** -/
theorem scan_item {w : Text} {r : Nat × Nat} (h : readItem w = some r) (rest : List Text) :
    scan 0 (-1) (joined ',' (w :: rest)) =
      ((r.1 : Int), (r.2 : Int)) :: (if rest = [] then [] else scan 0 (-1) (joined ',' rest)) := by
  have hw := joined_splitOn '-' w
  unfold readItem at h
  split at h
  · rename_i a ha
    obtain ⟨v, hv, rfl⟩ := map_eq_some_iff.1 h
    obtain ⟨-, hdigits, hval, hlt⟩ := number?_eq_some hv
    rw [ha] at hw
    obtain rfl : a = w := hw
    have hscan := scan_digits hdigits 0 (-1) (joined ',' ([] :: rest)) (by rw [hval]; exact hlt)
    rw [← joined_cons_append, append_nil, hval, scan_end, if_pos rfl] at hscan
    exact hscan
  · rename_i a c hac
    obtain ⟨s, hs, h⟩ := bind_eq_some_iff.1 h
    obtain ⟨e, he, rfl⟩ := map_eq_some_iff.1 h
    obtain ⟨-, hda, hva, hlta⟩ := number?_eq_some hs
    obtain ⟨-, hdc, hvc, hltc⟩ := number?_eq_some he
    rw [hac] at hw
    obtain rfl : a ++ '-' :: c = w := hw
    have hscan := scan_digits hda 0 (-1) (joined ',' (('-' :: c) :: rest)) (by rw [hva]; exact hlta)
    rw [← joined_cons_append, hva] at hscan
    have hdash : scan (s : Int) (-1) (joined ',' (('-' :: c) :: rest)) = scan 0 s (joined ',' (c :: rest)) := by
      rw [show '-' :: c = ['-'] ++ c from rfl, joined_cons_append]
      rfl
    have hrest := scan_digits hdc 0 s (joined ',' ([] :: rest)) (by rw [hvc]; exact hltc)
    rw [← joined_cons_append, append_nil, hvc, scan_end, if_neg (by omega)] at hrest
    exact hscan.trans (hdash.trans hrest)
  · cases h

/-- The pairs of `int`s that stand for ranges. -/
def toPairs (R : List (Nat × Nat)) : List (Int × Int) := R.map fun r => ((r.1 : Int), (r.2 : Int))

theorem scan_items {ws : List Text} (hne : ws ≠ []) (h : ws.mapM readItem = some R) :
    scan 0 (-1) (joined ',' ws) = toPairs R := by
  induction ws generalizing R with
  | nil => exact absurd rfl hne
  | cons w ws ih =>
    simp only [List.mapM_cons, Option.pure_def, Option.bind_eq_bind, Option.bind_eq_some_iff] at h
    obtain ⟨r, hr, R', hR', heq⟩ := h
    cases heq
    rw [scan_item hr]
    by_cases hws : ws = []
    · subst hws
      obtain rfl : R' = [] := by simpa using hR'.symm
      simp [toPairs]
    · rw [if_neg hws, ih hws hR']
      rfl

/-- **The automaton reads the meaning.** -/
theorem bitfmt2int_eq (hne : str ≠ []) (h : meaning str = some R) : bitfmt2int str = toPairs R := by
  rw [meaning, if_neg hne] at h
  have hjoin := joined_splitOn ',' str
  have hsplit : str.splitOn ',' ≠ [] := splitOn_ne_nil _ _
  have hhead : str.head? ≠ some ',' := by
    -- an empty first item has no meaning
    intro hc
    obtain ⟨cs, rfl⟩ : ∃ cs, str = ',' :: cs := by
      cases str with
      | nil => exact absurd rfl hne
      | cons c cs => exact ⟨cs, by simpa using hc⟩
    have hfirst : (',' :: cs : Text).splitOn ',' = [] :: cs.splitOn ',' := by
      have hcut : splitOnP (· == ',') ([] ++ ',' :: cs) = splitOnP (· == ',') [] ++ _ :=
        splitOnP_append_cons [] cs (by simp)
      rw [splitOnP_nil] at hcut
      exact hcut
    rw [hfirst, List.mapM_cons] at h
    have : readItem [] = none := by decide
    rw [this] at h
    cases h
  rw [bitfmt2int, if_neg hhead, ← hjoin, scan_items hsplit h]

/-- **The loop fills the ranges in**, up to the first one that is not inside. -/
theorem inxLoop_eq (R : List (Nat × Nat)) (b : Bitstr) : ∃ b' rc,
    inxLoop (toPairs R) b = some (b', rc) ∧ b'.bits = b.bits ∧
      ((∀ r ∈ R, r.1 < b.bits ∧ r.2 < b.bits) → rc = 0) ∧
      (rc = -1 ∨ rc = 0 ∧ ∀ i, bitTest b' i = true ↔ bitTest b i = true ∨ ∃ r ∈ R, r.1 ≤ i ∧ i ≤ r.2) := by
  induction R generalizing b with
  | nil => exact ⟨b, 0, rfl, rfl, fun _ => rfl, .inr ⟨rfl, by simp⟩⟩
  | cons r R ih =>
    simp only [toPairs, map_cons, inxLoop]
    rw [if_neg (by omega)]
    split
    next hout =>
      refine ⟨b, -1, rfl, rfl, fun h => ?_, .inl rfl⟩
      have := h r mem_cons_self
      omega
    next hout =>
      obtain ⟨b1, hset, hfill⟩ := nfill_eq true (show r.1 < b.bits by omega)
        (show r.2 < b.bits by omega)
      obtain ⟨b', rc, heq, hbits, hrc, hres⟩ := ih b1
      rw [hfill.bits] at hrc hbits
      refine ⟨b', rc, ?_, hbits, fun h => hrc (forall_mem_cons.1 h).2, ?_⟩
      · rw [Int.toNat_natCast, Int.toNat_natCast, bitNset, hset]
        exact heq
      · refine hres.imp_right fun ⟨h0, htest⟩ => ⟨h0, fun i => ?_⟩
        rw [htest i, hfill.test i]
        simp only [mem_cons, exists_eq_or_imp]
        by_cases hi : r.1 ≤ i ∧ i < max r.1 (r.2 + 1)
        · have hi' : r.1 ≤ i ∧ i ≤ r.2 := by omega
          simp [hi, hi']
        · have hi' : ¬(r.1 ≤ i ∧ i ≤ r.2) := by omega
          simp only [if_neg hi, hi', false_or]

/-- **Reading a text that means something**: an error, or exactly the positions it names; and
    no error when they are all valid. -/
theorem bitUnfmt_eq (hpos : 0 < t.bits) (hstr : meaning str = some R)
    (hempty : str = [] → ∀ i < t.bits, bitTest t i = false) : ∃ t' rc,
    bitUnfmt t str = some (t', rc) ∧ t'.bits = t.bits ∧
      ((∀ r ∈ R, r.1 < t.bits ∧ r.2 < t.bits) → rc = 0) ∧
      (rc = -1 ∨ rc = 0 ∧ ∀ i < t.bits, bitTest t' i = true ↔ ∃ r ∈ R, r.1 ≤ i ∧ i ≤ r.2) := by
  by_cases hne : str = []
  · obtain rfl : R = [] := by simpa [meaning, hne] using hstr.symm
    refine ⟨t, 0, by rw [bitUnfmt, if_pos hne], rfl, fun _ => rfl, .inr ⟨rfl, fun i hi => ?_⟩⟩
    simp [hempty hne i hi]
  · obtain ⟨t0, hclear, hfill⟩ := nfill_eq false hpos (show t.bits - 1 < t.bits by omega)
    obtain ⟨t', rc, heq, hbits, hrc, hres⟩ := inxLoop_eq R t0
    rw [hfill.bits] at hbits hrc
    refine ⟨t', rc, ?_, hbits, hrc, ?_⟩
    · rw [bitUnfmt, if_neg hne, bitfmt2int_eq hne hstr, inx2bitstr, bitNclear, hclear]
      exact heq
    · refine hres.imp_right fun ⟨h0, htest⟩ => ⟨h0, fun i hi => ?_⟩
      have hoff : bitTest t0 i = false := by
        rw [hfill.test i, if_pos (by omega)]
      rw [htest i, hoff]
      simp

/-! ## There and back -/

theorem readItem_itemText {r : Nat × Nat} (h1 : r.1 < 2 ^ 31) (h2 : r.2 < 2 ^ 31) :
    readItem (itemText r) = some r := by
  have hno : ∀ k, '-' ∉ ofNat k := fun k => (isWord_ofNat (by decide)).2
  unfold itemText
  split
  · rename_i heq
    have hsplit : (ofNat r.1).splitOn '-' = [ofNat r.1] :=
      @splitOn_joined '-' [ofNat r.1] (by simpa using hno r.1) (by simp)
    rw [readItem, hsplit]
    simp only [number?_ofNat h1, map_some]
    rw [show (r.1, r.1) = r from Prod.ext rfl heq.symm]
  · have hsplit : (ofNat r.1 ++ '-' :: ofNat r.2).splitOn '-' = [ofNat r.1, ofNat r.2] :=
      @splitOn_joined '-' [ofNat r.1, ofNat r.2] (by simpa using ⟨hno r.1, hno r.2⟩) (by simp)
    rw [readItem, hsplit]
    simp only [number?_ofNat h1, number?_ofNat h2, map_some, bind_some]

theorem comma_not_mem_itemText (r : Nat × Nat) : ',' ∉ itemText r := by
  have hno : ∀ k, ',' ∉ ofNat k := fun k => (isWord_ofNat (by decide)).2
  unfold itemText
  split
  · exact hno r.1
  · simp [hno r.1, hno r.2]

theorem itemText_ne_nil (r : Nat × Nat) : itemText r ≠ [] := by
  unfold itemText
  split
  · exact ofNat_ne_nil r.1
  · simp

theorem mapM_readItem (h : ∀ r ∈ R, r.1 < 2 ^ 31 ∧ r.2 < 2 ^ 31) : (R.map itemText).mapM readItem = some R := by
  induction R with
  | nil => rfl
  | cons r R ih =>
    have hr := h r mem_cons_self
    rw [map_cons, List.mapM_cons, readItem_itemText hr.1 hr.2, ih (forall_mem_cons.1 h).2]
    rfl

theorem meaning_joined (h : ∀ r ∈ R, r.1 < 2 ^ 31 ∧ r.2 < 2 ^ 31) :
    meaning (joined ',' (R.map itemText)) = some R := by
  unfold meaning
  cases R with
  | nil => rfl
  | cons r R =>
    have hne : joined ',' ((r :: R).map itemText) ≠ [] := by
      obtain ⟨c, cs, hc⟩ := exists_cons_of_ne_nil (itemText_ne_nil r)
      have hmem : c ∈ joined ',' ((r :: R).map itemText) :=
        mem_joined (w := itemText r) (by simp) (by rw [hc]; simp)
      intro h0
      rw [h0] at hmem
      cases hmem
    rw [if_neg hne, splitOn_joined _ (by simp)]
    · exact mapM_readItem h
    · intro w hw
      obtain ⟨r', -, rfl⟩ := mem_map.1 hw
      exact comma_not_mem_itemText r'

/-- **The text of a string, read into a string of the same size**, gives the string again. -/
theorem bitUnfmt_joined (hR : Cover b 0 R) (hsame : t.bits = b.bits)
    (hset : (∃ i < b.bits, bitTest b i = true) ∨ ∀ i < t.bits, bitTest t i = false) : ∃ t',
    bitUnfmt t (joined ',' (R.map itemText)) = some (t', 0) ∧ t'.bits = b.bits ∧
      ∀ i < b.bits, bitTest t' i = bitTest b i := by
  have hb := b.bits_lt
  have hin : ∀ r ∈ R, r.1 < b.bits ∧ r.2 < b.bits := by
    intro r hr
    have := hR.inside r hr
    omega
  have hmean := meaning_joined fun r hr => by have := hin r hr; omega
  by_cases hpos : 0 < b.bits
  · have hempty : joined ',' (R.map itemText) = [] → ∀ i < t.bits, bitTest t i = false := by
      intro h0
      rcases hset with ⟨i, hi, ht⟩ | hclear
      · -- a string with a set bit has a text
        rw [h0] at hmean
        obtain rfl : R = [] := by simpa [meaning] using hmean.symm
        obtain ⟨r, hr, -⟩ := (hR.holds i (Nat.zero_le i) hi).1 ht
        cases hr
      · exact hclear
    obtain ⟨t', rc, heq, hbits, hrc, hres⟩ := bitUnfmt_eq (by omega) hmean hempty
    rw [hsame] at hbits hrc hres
    obtain rfl := hrc hin
    refine ⟨t', heq, hbits, fun i hi => ?_⟩
    have htest := (hres.resolve_left (by decide)).2 i hi
    rw [Bool.eq_iff_iff, htest, hR.holds i (Nat.zero_le i) hi]
  · obtain rfl : R = [] := by
      refine eq_nil_iff_forall_not_mem.2 fun r hr => ?_
      have := hin r hr
      omega
    exact ⟨t, rfl, hsame, fun i hi => by omega⟩

/-- An item without a number sets bit 0. -/
example : bitUnfmt ⟨8, [0], rfl, by decide⟩ "5,".toList = some (⟨8, [0x21], rfl, by decide⟩, 0) := by
  decide

end Slurmpp.Bitstring
