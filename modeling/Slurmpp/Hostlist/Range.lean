/-
  Ranges of host names (`src/common/hostlist.c`), on a system of one dimension.

  A range stands for the names `prefix ++ "%0*lu" width n` with `lo ≤ n ≤ hi`.  `_width_equiv` decides whether two
  widths may be replaced by one, looking at the LOWEST number of each range only.  `widthEquiv_eq_some`: the common
  width writes all the numbers of both ranges as their own widths did; `widthEquiv_eq_none`: without one the two
  widths write the second number differently.
-/
import Slurmpp.Lib.Text

namespace Slurmpp.Hostlist

open Text List

def ulongMax : Nat := 2 ^ 64 - 1

/-! ## Widths -/

/-- `while (num /= 10L) n++`. -/
def digitsLoop : Nat → Nat → Nat → Nat
  | 0, _, n => n
  | fuel + 1, num, n => if num / 10 = 0 then n else digitsLoop fuel (num / 10) (n + 1)

/-- `_zero_padded`: the number of zeros needed to pad `num` to `width`. -/
def zeroPadded (num width : Nat) : Nat :=
  if digitsLoop num num 1 < width then width - digitsLoop num num 1 else 0

/-- `_width_equiv`: the width that both have afterwards, or none. -/
def widthEquiv (n wn m wm : Nat) : Option Nat :=
  if wn = wm then some wn
  else if zeroPadded n wn ≠ zeroPadded n wm ∧ zeroPadded m wm ≠ zeroPadded m wn then none
  else if zeroPadded n wn ≠ zeroPadded n wm then some wn
  else some wm

theorem digitsLoop_eq {fuel num : Nat} (n : Nat) (h : num ≤ fuel) :
    digitsLoop fuel num (n + 1) = n + (ofNat num).length := by
  induction fuel generalizing num n with
  | zero =>
    obtain rfl : num = 0 := Nat.le_zero.1 h
    rfl
  | succ fuel ih =>
    have hlen : (ofNat num).length = if num < 10 then 1 else (ofNat (num / 10)).length + 1 := by
      rw [ofNat, Nat.toDigits_eq_if (by decide)]
      split_ifs
      · rfl
      · rw [length_append, length_singleton, ofNat]
    rw [digitsLoop, hlen]
    by_cases hsmall : num < 10
    · rw [if_pos (by omega), if_pos hsmall]
    · rw [if_neg (by omega), if_neg hsmall, ih (n + 1) (by omega)]
      omega

theorem zeroPadded_eq (num width : Nat) : zeroPadded num width = width - (ofNat num).length := by
  rw [zeroPadded, digitsLoop_eq 0 (le_refl num), Nat.zero_add]
  split_ifs with h
  · rfl
  · omega

variable {n m wn wm w : Nat}

/-- **The common width changes nothing**: every number from the lowest on is written as before. -/
theorem widthEquiv_eq_some (h : widthEquiv n wn m wm = some w) :
    (∀ k, n ≤ k → padded w k = padded wn k) ∧ ∀ k, m ≤ k → padded w k = padded wm k := by
  simp only [widthEquiv, zeroPadded_eq] at h
  split_ifs at h with h1 h2 h3 <;> cases h
  · subst h1
    exact ⟨fun _ _ => rfl, fun _ _ => rfl⟩
  · -- the width of the first: both widths are too small to pad the second
    refine ⟨fun _ _ => rfl, ?_⟩
    intro k hk
    have hlen := length_ofNat_mono hk
    exact padded_congr (by omega)
  · refine ⟨?_, fun _ _ => rfl⟩
    intro k hk
    have hlen := length_ofNat_mono hk
    exact padded_congr (by omega)

theorem widthEquiv_eq_none (h : widthEquiv n wn m wm = none) : padded wn m ≠ padded wm m := by
  simp only [widthEquiv, zeroPadded_eq] at h
  split_ifs at h with h1 h2
  intro heq
  have hlen := congrArg length heq
  rw [length_padded, length_padded] at hlen
  omega

/-! ## Ranges -/

/-- `struct hostrange_components`. -/
structure Hostrange where
  pfx : Text
  lo : Nat
  hi : Nat
  width : Nat
  singlehost : Bool
deriving DecidableEq

namespace Hostrange

def createSingle (pfx : Text) : Hostrange := ⟨pfx, 0, 0, 0, true⟩

def create (pfx : Text) (lo hi width : Nat) : Hostrange := ⟨pfx, lo, hi, width, false⟩

def count (hr : Hostrange) : Nat := if hr.singlehost then 1 else hr.hi + 1 - hr.lo

def nameOf (hr : Hostrange) (n : Nat) : Text := hr.pfx ++ padded hr.width n

def names (hr : Hostrange) : List Text :=
  if hr.singlehost then [hr.pfx] else (range' hr.lo hr.count).map hr.nameOf

/-- What holds of the ranges of a list: they are not empty, and a single host has no number. -/
structure Ok (hr : Hostrange) : Prop where
  le : hr.lo ≤ hr.hi
  single : hr.singlehost = true → hr.lo = 0 ∧ hr.hi = 0 ∧ ∀ c ∈ hr.pfx.getLast?, c.isDigit = false

variable {hr : Hostrange} {name : Text}

theorem ok_create {pfx : Text} {lo hi width : Nat} (h : lo ≤ hi) : (create pfx lo hi width).Ok :=
  ⟨h, fun hs => absurd hs Bool.false_ne_true⟩

theorem length_names : hr.names.length = hr.count := by
  rw [names]
  split_ifs with hs
  · rw [count, if_pos hs]
    rfl
  · rw [length_map, length_range']

theorem mem_names_iff (h : hr.singlehost = false) :
    name ∈ hr.names ↔ ∃ n, hr.lo ≤ n ∧ n ≤ hr.hi ∧ name = hr.nameOf n := by
  rw [names, h, if_neg Bool.false_ne_true, mem_map, count, h, if_neg Bool.false_ne_true]
  constructor
  · rintro ⟨n, hn, rfl⟩
    rw [mem_range'_1] at hn
    exact ⟨n, hn.1, by omega, rfl⟩
  · rintro ⟨n, h1, h2, rfl⟩
    exact ⟨n, mem_range'_1.2 ⟨h1, by omega⟩, rfl⟩

theorem nameOf_injective (hr : Hostrange) : Function.Injective hr.nameOf := by
  intro m n h
  exact padded_injective (append_cancel_left h)

theorem names_single (h : hr.singlehost = true) : hr.names = [hr.pfx] := by
  rw [names, h, if_pos rfl]

theorem getElem?_names (h : hr.singlehost = false) {k : Nat} (hk : k < hr.count) :
    hr.names[k]? = some (hr.nameOf (hr.lo + k)) := by
  rw [names, h, if_neg Bool.false_ne_true, getElem?_map, getElem?_range' hk, Option.map_some, Nat.one_mul]

theorem names_setWidth {w : Nat} (h : ∀ k, hr.lo ≤ k → padded w k = padded hr.width k) :
    names { hr with width := w } = hr.names := by
  have hcount : count { hr with width := w } = hr.count := rfl
  rw [names, names, hcount]
  split_ifs
  · rfl
  · refine map_congr_left ?_
    intro k hk
    exact congrArg (hr.pfx ++ ·) (h k (mem_range'_1.1 hk).1)

/-- The range with other bounds. -/
def part (hr : Hostrange) (lo hi : Nat) : Hostrange := { hr with lo := lo, hi := hi }

theorem count_part (h : hr.singlehost = false) (lo hi : Nat) : (hr.part lo hi).count = hi + 1 - lo := by
  rw [count, part, h, if_neg Bool.false_ne_true]

theorem names_part (h : hr.singlehost = false) (lo hi : Nat) :
    (hr.part lo hi).names = (range' lo (hi + 1 - lo)).map hr.nameOf := by
  rw [names, count_part h, part, h, if_neg Bool.false_ne_true]
  rfl

def empty (hr : Hostrange) : Bool := decide (hr.hi < hr.lo) || decide (hr.hi = ulongMax)

/-- `hostrange_delete_host` for a number `n` of the range: the range as it is left, and the new range
    that has the numbers above. -/
def deleteHost (hr : Hostrange) (n : Nat) : Hostrange × Option Hostrange :=
  if n = hr.lo then ({ hr with lo := (hr.lo + 1) % 2 ^ 64 }, none)
  else if n = hr.hi then ({ hr with hi := hr.hi - 1 }, none)
  else ({ hr with hi := n - 1 }, some { hr with lo := n + 1 })

end Hostrange

/-- The names a list of ranges stands for, in order. -/
def names (l : List Hostrange) : List Text := l.flatMap Hostrange.names

@[simp] theorem names_nil : names [] = [] := rfl

theorem names_cons (hr : Hostrange) (l : List Hostrange) : names (hr :: l) = hr.names ++ names l := by
  rw [names, flatMap_cons, names]

theorem names_append (l l' : List Hostrange) : names (l ++ l') = names l ++ names l' := by
  rw [names, flatMap_append, names, names]

/-! ## Writing a name -/

def maxHostnameLen : Nat := 64

/-- `_hostrange_string`, and the text made by `hostlist_next`: the name at a depth of a range, cut to
    the buffer, or none if the prefix alone (or the number alone) fills it. -/
def hostrangeString (hr : Hostrange) (depth : Nat) : Option Text :=
  let size := maxHostnameLen + 16
  if size ≤ hr.pfx.length + 1 then none
  else if hr.singlehost then some hr.pfx
  else
    let num := padded hr.width (hr.lo + depth)
    if size ≤ num.length then none else some ((hr.pfx ++ num).take (size - 1))

/-- Names that leave room in the buffer. -/
def Fits (l : List Hostrange) : Prop := ∀ x ∈ names l, x.length + 1 < maxHostnameLen + 16

theorem hostrangeString_eq {hr : Hostrange} {depth : Nat} {x : Text} (hx : hr.names[depth]? = some x)
    (hfit : x.length + 1 < maxHostnameLen + 16) : hostrangeString hr depth = some x := by
  obtain ⟨hlt, -⟩ := List.getElem?_eq_some_iff.1 hx
  rw [Hostrange.length_names] at hlt
  by_cases hs : hr.singlehost = true
  · rw [Hostrange.count, if_pos hs] at hlt
    obtain rfl : depth = 0 := by omega
    rw [Hostrange.names_single hs] at hx
    cases hx
    rw [hostrangeString]
    simp only [hs, if_true]
    rw [if_neg (by omega)]
  · rw [Bool.not_eq_true] at hs
    rw [Hostrange.getElem?_names hs hlt] at hx
    cases hx
    have hpos := length_pos_iff.2 (padded_ne_nil hr.width (hr.lo + depth))
    rw [Hostrange.nameOf, length_append] at hfit
    rw [hostrangeString]
    simp only [hs, Bool.false_eq_true, if_false]
    rw [if_neg (by omega), if_neg (by omega), take_of_length_le, Hostrange.nameOf]
    rw [length_append]
    omega

end Slurmpp.Hostlist
