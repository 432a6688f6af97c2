/-
  Texts cut into words at a delimiter, and decimal numerals.

  `words d s` is what repeated `strtok` calls return: the MAXIMAL runs of characters other than `d`.  The writers of
  such texts come in two shapes, `joined d ws` (no delimiter at the end) and `closed d ws` (every word followed by
  it).  Everything rests on ONE equation, `words_append_delim`.

  A number is written by `ofNat` and read by `toInt`, which skips white space, takes an optional sign and then the
  LONGEST run of digits.  A text that goes on with a non-digit can be split back into the numeral and the rest
  (`ofNat_append_inj`).
-/
import Mathlib

namespace Slurmpp

open List Nat

abbrev Text := List Char

instance : LawfulBEq Text := inferInstanceAs (LawfulBEq (List Char))

namespace Text

variable {d : Char}

/-! ## Words -/

/-- The words of a text: its maximal non-empty runs without the delimiter. -/
def words (d : Char) (s : Text) : List Text := (s.splitOn d).filter fun w => !w.isEmpty

/-- A text that is read back as ONE word: non-empty and without the delimiter. -/
def IsWord (d : Char) (w : Text) : Prop := w ≠ [] ∧ d ∉ w

instance (d : Char) (w : Text) : Decidable (IsWord d w) := inferInstanceAs (Decidable (_ ∧ _))

/-- The words with one delimiter between any two of them. -/
def joined (d : Char) : List Text → Text
  | [] => []
  | [w] => w
  | w :: v :: ws => w ++ d :: joined d (v :: ws)

/-- The words with a delimiter after each of them. -/
def closed (d : Char) : List Text → Text
  | [] => []
  | w :: ws => w ++ d :: closed d ws

@[simp] theorem words_nil : words d [] = [] := by simp [words, splitOn, splitOnP_nil]

/-- **A delimiter cuts**: the words on its left, then the words on its right. -/
theorem words_append_delim (s t : Text) : words d (s ++ d :: t) = words d s ++ words d t := by
  unfold words splitOn
  rw [splitOnP_append_cons s t (by simp), filter_append]

theorem words_append_delim_nil (s : Text) : words d (s ++ [d]) = words d s := by
  rw [words_append_delim, words_nil, append_nil]

theorem IsWord.words_eq {w : Text} (h : IsWord d w) : words d w = [w] := by
  have hno : ∀ c ∈ w, (c == d) = false := by
    intro c hc
    exact beq_false_of_ne fun hcd => h.2 (hcd ▸ hc)
  unfold words splitOn
  rw [splitOnP_eq_singleton hno]
  simp [h.1]

theorem IsWord.words_append {w : Text} (h : IsWord d w) (t : Text) : words d (w ++ d :: t) = w :: words d t := by
  rw [words_append_delim, h.words_eq, singleton_append]

theorem isWord_of_mem_words {s w : Text} (h : w ∈ words d s) : IsWord d w := by
  by_cases hd : d ∈ s
  · -- cut at a delimiter: the word belongs to one of two shorter texts
    obtain ⟨a, b, rfl⟩ := append_of_mem hd
    rw [words_append_delim, mem_append] at h
    rcases h with ha | hb
    · exact isWord_of_mem_words ha
    · exact isWord_of_mem_words hb
  · cases s with
    | nil => cases h
    | cons c s =>
      have hs : IsWord d (c :: s) := ⟨by simp, hd⟩
      rw [hs.words_eq, mem_singleton] at h
      exact h ▸ hs
termination_by s.length

/-! ## Reading back what the writers write -/

variable {ws : List Text}

section

variable (h : ∀ w ∈ ws, IsWord d w)
include h

theorem words_closed_append (t : Text) : words d (closed d ws ++ t) = ws ++ words d t := by
  induction ws with
  | nil => rfl
  | cons w ws ih =>
    have hw := h w mem_cons_self
    have hws := ih (forall_mem_cons.1 h).2
    rw [closed, append_assoc, cons_append, hw.words_append, hws, cons_append]

theorem words_closed : words d (closed d ws) = ws := by
  have hc := words_closed_append h []
  rwa [words_nil, append_nil, append_nil] at hc

theorem words_joined : words d (joined d ws) = ws := by
  induction ws with
  | nil => exact words_nil
  | cons w ws ih =>
    have hw := h w mem_cons_self
    cases ws with
    | nil => exact hw.words_eq
    | cons v ws => rw [joined, hw.words_append, ih (forall_mem_cons.1 h).2]

end

theorem closed_append_joined {vs : List Text} (hvs : vs ≠ []) : closed d ws ++ joined d vs = joined d (ws ++ vs) := by
  induction ws with
  | nil => rfl
  | cons w ws ih =>
    obtain ⟨v, rest, hr⟩ : ∃ v rest, ws ++ vs = v :: rest :=
      exists_cons_of_ne_nil (by simp [hvs])
    rw [closed, append_assoc, cons_append, ih, cons_append, hr, joined]

/-! ## Cutting at every delimiter

Unlike `words`, `splitOn` keeps empty pieces, so that nothing is lost. -/

theorem joined_eq_intercalate : joined d ws = [d].intercalate ws := by
  induction ws with
  | nil => rfl
  | cons w ws ih =>
    cases ws with
    | nil => simp [joined]
    | cons v ws =>
      have hne : v :: ws ≠ [] := by simp
      rw [joined, ih, intercalate_cons_of_ne_nil hne, append_assoc, singleton_append]

theorem joined_splitOn (d : Char) (s : Text) : joined d (s.splitOn d) = s := by
  rw [joined_eq_intercalate, intercalate_splitOn]

theorem splitOn_joined (h : ∀ w ∈ ws, d ∉ w) (hne : ws ≠ []) : (joined d ws).splitOn d = ws := by
  rw [joined_eq_intercalate, splitOn_intercalate d h hne]

theorem not_mem_of_mem_splitOn {s w : Text} (h : w ∈ s.splitOn d) : d ∉ w := by
  by_cases hw : w = []
  · simp [hw]
  · exact (isWord_of_mem_words (mem_filter.2 ⟨h, by simpa using hw⟩)).2

variable {c : Char}

theorem mem_joined {w : Text} (h : w ∈ ws) (hc : c ∈ w) : c ∈ joined d ws := by
  induction ws with
  | nil => cases h
  | cons v ws ih =>
    cases ws with
    | nil =>
      obtain rfl : w = v := by simpa using h
      exact hc
    | cons u ws =>
      rw [joined, mem_append]
      rcases mem_cons.1 h with rfl | h
      · exact .inl hc
      · exact .inr (mem_cons_of_mem _ (ih h))

theorem mem_of_mem_splitOn {s w : Text} (h : w ∈ s.splitOn d) (hc : c ∈ w) : c ∈ s := by
  have hj := mem_joined (d := d) h hc
  rwa [joined_splitOn] at hj

/-! ## Texts that end where a word ends

A text to which words are appended with a delimiter after each: either empty or ending in the
delimiter.  Appending to such a text never runs into its last word. -/

/-- Empty, or ending in the delimiter. -/
def Ended (d : Char) (s : Text) : Prop := s = [] ∨ ∃ t, s = t ++ [d]

theorem ended_append_delim (s : Text) : Ended d (s ++ [d]) := .inr ⟨s, rfl⟩

theorem Ended.words_append {s : Text} (h : Ended d s) (t : Text) : words d (s ++ t) = words d s ++ words d t := by
  rcases h with rfl | ⟨u, rfl⟩
  · rw [words_nil, nil_append, nil_append]
  · rw [append_assoc, singleton_append, words_append_delim, words_append_delim_nil]

/-! ## Decimal numerals -/

/-- The decimal numeral of a natural number. -/
def ofNat (n : Nat) : Text := Nat.toDigits 10 n

/-- The decimal numeral of an integer, with a minus sign below zero. -/
def ofInt : Int → Text
  | .ofNat n => ofNat n
  | .negSucc n => '-' :: ofNat (n + 1)

/-- The characters that are skipped before a number. -/
def isSpace (c : Char) : Bool := c ∈ [' ', '\t', '\n', '\x0b', '\x0c', '\r']

/-- The value of the longest run of digits a text begins with; `0` if there is none. -/
def leadingNat (s : Text) : Nat := Nat.ofDigitChars 10 (s.takeWhile Char.isDigit) 0

/-- The number a text begins with: white space, an optional sign, digits; the rest is ignored. -/
def toInt (s : Text) : Int :=
  match s.dropWhile isSpace with
  | '-' :: t => -(leadingNat t : Int)
  | '+' :: t => leadingNat t
  | t => leadingNat t

variable {n m w : Nat}

theorem isDigit_of_mem_ofNat (h : c ∈ ofNat n) : c.isDigit = true :=
  isDigit_of_mem_toDigits (by decide) (by decide) h

theorem ofNat_ne_nil (n : Nat) : ofNat n ≠ [] := toDigits_ne_nil

theorem isWord_ofNat (hd : d.isDigit = false) : IsWord d (ofNat n) := by
  refine ⟨ofNat_ne_nil n, fun h => ?_⟩
  rw [isDigit_of_mem_ofNat h] at hd
  cases hd

theorem leadingNat_ofNat (n : Nat) : leadingNat (ofNat n) = n := by
  have h : (ofNat n).takeWhile Char.isDigit = ofNat n :=
    takeWhile_eq_self_iff.2 fun c hc => isDigit_of_mem_ofNat hc
  rw [leadingNat, h, ofNat, ofDigitChars_ten_toDigits]

/-- A digit is neither a blank nor a sign. -/
theorem plain_of_isDigit (hc : c.isDigit = true) : isSpace c = false ∧ c ≠ '-' ∧ c ≠ '+' := by
  refine ⟨decide_eq_false fun h => ?_, ?_, ?_⟩
  · simp only [mem_cons, not_mem_nil, or_false] at h
    rcases h with rfl | rfl | rfl | rfl | rfl | rfl <;> exact absurd hc (by decide)
  · rintro rfl
    exact absurd hc (by decide)
  · rintro rfl
    exact absurd hc (by decide)

theorem toInt_of_isDigit (s : Text) (hc : c.isDigit = true) : toInt (c :: s) = leadingNat (c :: s) := by
  obtain ⟨hsp, hm, hp⟩ := plain_of_isDigit hc
  rw [toInt, dropWhile_cons, hsp]
  simp [hm, hp]

theorem ofNat_eq_cons : ∃ c s, ofNat n = c :: s ∧ c.isDigit = true := by
  obtain ⟨c, s, hs⟩ := exists_cons_of_ne_nil (ofNat_ne_nil n)
  exact ⟨c, s, hs, isDigit_of_mem_ofNat (hs ▸ mem_cons_self)⟩

theorem toInt_ofNat : toInt (ofNat n) = n := by
  obtain ⟨c, s, hs, hc⟩ := ofNat_eq_cons
  rw [hs, toInt_of_isDigit s hc, ← hs, leadingNat_ofNat]

theorem ofNat_injective : Function.Injective ofNat := by
  intro m n h
  rw [← leadingNat_ofNat m, h, leadingNat_ofNat]

/-- A text that does not begin with a digit. -/
def NoDigitFirst (s : Text) : Prop := ∀ c ∈ s.head?, c.isDigit = false

instance (s : Text) : Decidable (NoDigitFirst s) :=
  decidable_of_iff (s.head?.all fun c => !c.isDigit) (by
    unfold NoDigitFirst
    cases s <;> simp)

theorem takeWhile_isDigit_ofNat_append {s : Text} (hs : NoDigitFirst s) :
    (ofNat n ++ s).takeWhile Char.isDigit = ofNat n := by
  rw [takeWhile_append_of_pos fun c hc => isDigit_of_mem_ofNat hc]
  cases s with
  | nil => simp
  | cons c s =>
    have hc : c.isDigit = false := hs c (by simp)
    simp [hc]

theorem dropWhile_isDigit_ofNat_append {s : Text} (hs : NoDigitFirst s) :
    (ofNat n ++ s).dropWhile Char.isDigit = s := by
  rw [dropWhile_append_of_pos fun c hc => isDigit_of_mem_ofNat hc]
  cases s with
  | nil => rfl
  | cons c s =>
    have hc : c.isDigit = false := hs c (by simp)
    simp [hc]

/-- **A numeral can be cut off again** from a text that does not go on with a digit. -/
theorem ofNat_append_inj {s t : Text} (hs : NoDigitFirst s) (ht : NoDigitFirst t)
    (h : ofNat m ++ s = ofNat n ++ t) : m = n ∧ s = t := by
  have hmn : ofNat m = ofNat n := by
    rw [← takeWhile_isDigit_ofNat_append hs, h, takeWhile_isDigit_ofNat_append ht]
  refine ⟨ofNat_injective hmn, ?_⟩
  rw [hmn] at h
  exact append_cancel_left h

/-! ## Numerals of a least width -/

/-- The numeral of `n`, filled with zeros up to `w` characters. -/
def padded (w n : Nat) : Text := replicate (w - (ofNat n).length) '0' ++ ofNat n

/-- The value of a run of digits. -/
def value (ds : Text) : Nat := Nat.ofDigitChars 10 ds 0

theorem length_padded : (padded w n).length = max w (ofNat n).length := by
  rw [padded, length_append, length_replicate]
  omega

theorem isDigit_of_mem_padded (h : c ∈ padded w n) : c.isDigit = true := by
  rcases mem_append.1 h with h | h
  · rw [eq_of_mem_replicate h]
    rfl
  · exact isDigit_of_mem_ofNat h

theorem padded_ne_nil (w n : Nat) : padded w n ≠ [] := by
  rw [padded]
  exact append_ne_nil_of_right_ne_nil _ (ofNat_ne_nil n)

theorem ofDigitChars_zeros (k : Nat) : Nat.ofDigitChars 10 (replicate k '0') 0 = 0 := by
  induction k with
  | zero => rfl
  | succ k ih =>
    rw [replicate_succ, ofDigitChars_cons]
    exact ih

theorem value_padded (w n : Nat) : value (padded w n) = n := by
  rw [value, padded, ofDigitChars_append, ofDigitChars_zeros]
  exact ofDigitChars_ten_toDigits

theorem padded_injective : Function.Injective (padded w) := by
  intro m n h
  rw [← value_padded w m, h, value_padded]

theorem padded_congr {w' : Nat} (h : max w (ofNat n).length = max w' (ofNat n).length) :
    padded w n = padded w' n := by
  have hw : w - (ofNat n).length = w' - (ofNat n).length := by omega
  rw [padded, padded, hw]

theorem length_ofNat_pos : 0 < (ofNat n).length := length_toDigits_pos

theorem length_ofNat_mono (h : m ≤ n) : (ofNat m).length ≤ (ofNat n).length := by
  have hn := (length_toDigits_le_iff (by decide) length_ofNat_pos).1
    (le_refl (ofNat n).length)
  exact (length_toDigits_le_iff (by decide) length_ofNat_pos).2 (h.trans_lt hn)

theorem digitChar_of_isDigit (h : c.isDigit = true) :
    c.toNat - '0'.toNat < 10 ∧ (c.toNat - '0'.toNat).digitChar = c := by
  rw [Char.isDigit_iff_toNat] at h
  obtain ⟨h1, h2⟩ := h
  rw [← Char.ofNat_toNat c]
  generalize c.toNat = n at *
  change 48 ≤ n at h1
  change n ≤ 57 at h2
  interval_cases n <;> decide

theorem padded_snoc {v e : Nat} (hw : 0 < w) (he : e < 10) :
    padded (w + 1) (10 * v + e) = padded w v ++ [e.digitChar] := by
  rcases Nat.eq_zero_or_pos v with rfl | hv
  · have he' : ofNat (10 * 0 + e) = [e.digitChar] := by
      rw [Nat.mul_zero, Nat.zero_add]
      exact Nat.toDigits_of_lt_base he
    have h0 : ofNat 0 = ['0'] := rfl
    rw [padded, padded, he', h0, ← replicate_succ']
    congr 2
    simp only [length_singleton]
    omega
  · have hcat : ofNat (10 * v + e) = ofNat v ++ [e.digitChar] := by
      rw [← Nat.toDigits_of_lt_base he]
      exact (Nat.toDigits_append_toDigits (by decide) hv he).symm
    rw [padded, padded, hcat, length_append, length_singleton, Nat.add_sub_add_right, append_assoc]

/-- **A run of digits is the numeral of its value**, filled up to its length. -/
theorem padded_value {ds : Text} (hds : ∀ c ∈ ds, c.isDigit = true) (hne : ds ≠ []) :
    padded ds.length (value ds) = ds := by
  induction ds using reverseRecOn with
  | nil => exact absurd rfl hne
  | append_singleton xs c ih =>
    obtain ⟨hlt, hc⟩ := digitChar_of_isDigit (hds c (by simp))
    have hvalue : value (xs ++ [c]) = 10 * value xs + (c.toNat - '0'.toNat) := by
      rw [value, ofDigitChars_append]
      rfl
    rw [hvalue, length_append, length_singleton]
    cases xs with
    | nil =>
      show padded 1 (10 * 0 + _) = _
      rw [mul_zero, zero_add, padded, ofNat, toDigits_of_lt_base hlt, hc]
      rfl
    | cons x xs =>
      rw [padded_snoc (by simp) hlt, hc, ih (fun c hc => hds c (mem_append_left _ hc)) (by simp)]

end Text

end Slurmpp
