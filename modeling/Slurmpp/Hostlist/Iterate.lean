/-
  Iteration over a host list with removal (`hostlist_next` and `hostlist_remove` in `src/common/hostlist.c`).

  An iterator is a range of the array (`idx`) and a depth in it, −1 before the first host.  Its third field, the
  pointer `hr`, is always `hl->hr[idx]` in the calls modelled here.

  1. `At hl i q` — the iterator stands before the host at position `q`, which `hostlistNext_at` returns.
  2. Removal replaces one range by none, one or two.  What it does to an iterator depends on whether that stands in an
     earlier range, in this one or in a later one (`At.split`); only in this one can it go wrong (`repaired`).
  3. The positions are cursors over the list of names (`Follows`, `Leads`).
-/
import Slurmpp.Lib.Cursor
import Slurmpp.Lib.Machine
import Slurmpp.Hostlist.Range

namespace Slurmpp.Hostlist

open Text Cursor List Nat

/-- `struct hostlist_iterator`, without the pointer to the range. -/
structure Iterator where
  idx : Nat
  depth : Int
deriving DecidableEq

/-- `hostlist_iterator_create`, `hostlist_iterator_reset` -/
def iteratorReset : Iterator := ⟨0, -1⟩

/-- A number as an `unsigned long`. -/
def ulong (n : Int) : Nat := (n % 2 ^ 64).toNat

/-- `_iterator_advance`: the depth is an `int`, and compared as `unsigned long`. -/
def iteratorAdvance (hl : List Hostrange) (i : Iterator) : Iterator :=
  match hl[i.idx]? with
  | none => i
  | some hr =>
    let depth := (i.depth + 1).bmod (2 ^ 32)
    if ulong ((hr.hi : Int) - hr.lo) < ulong depth then ⟨i.idx + 1, 0⟩ else ⟨i.idx, depth⟩

/-- `hostlist_next`: the name, none for NULL, and the iterator as it is left. -/
def hostlistNext (hl : List Hostrange) (i : Iterator) : Option Text × Iterator :=
  match hl[(iteratorAdvance hl i).idx]? with
  | none => (none, iteratorAdvance hl i)
  | some hr => (hostrangeString hr (iteratorAdvance hl i).depth.toNat, iteratorAdvance hl i)

/-- What `hostlist_insert_range` at `n` does to an iterator. -/
def insertShift (n : Nat) (i : Iterator) : Iterator := if n ≤ i.idx then { i with idx := i.idx + 1 } else i

/-- What `hostlist_shift_iterators` does to an iterator when the range at `n` is deleted. -/
def deleteShift (n : Nat) (i : Iterator) : Iterator :=
  if n ≤ i.idx then
    if 1 ≤ i.idx then { i with idx := i.idx - 1 } else iteratorReset
  else i

/-- What a removal leaves: the ranges, the iterator it was called on, and what it does to the others. -/
structure Removal where
  hl : List Hostrange
  own : Iterator
  shift : Iterator → Iterator

/-- `hostlist_remove`; none when the iterator is at no range. -/
def hostlistRemove (hl : List Hostrange) (i : Iterator) : Option Removal :=
  (hl[i.idx]?).map fun hr =>
    let left := hl.take i.idx
    let right := hl.drop (i.idx + 1)
    match hr.deleteHost (ulong (hr.lo + i.depth)) with
    | (hr', some new) => ⟨left ++ hr' :: new :: right, ⟨i.idx + 1, -1⟩, insertShift (i.idx + 1)⟩
    | (hr', none) =>
      if hr'.empty then ⟨left ++ right, deleteShift i.idx i, deleteShift i.idx⟩
      else ⟨left ++ hr' :: right, { i with depth := i.depth - 1 }, id⟩

/-! ## Where an iterator stands -/

/-- The iterator stands before the host at position `q`. -/
inductive At : List Hostrange → Iterator → Nat → Prop
  | inside (l : List Hostrange) (hr : Hostrange) (r : List Hostrange) (d : Nat) (hd : d < 2 ^ 31) :
      At (l ++ hr :: r) ⟨l.length, (d : Int) - 1⟩ ((names l).length + min d hr.count)
  | atEnd (l : List Hostrange) (depth : Int) : At l ⟨l.length, depth⟩ (names l).length

variable {hl l r : List Hostrange} {hr : Hostrange} {i : Iterator} {q d : Nat} {x : Text}

theorem length_names_mid (l : List Hostrange) (hr : Hostrange) (r : List Hostrange) :
    (names (l ++ hr :: r)).length = (names l).length + hr.count + (names r).length := by
  rw [names_append, names_cons, length_append, length_append, Hostrange.length_names, add_assoc]

theorem at_reset : At hl iteratorReset 0 := by
  cases hl with
  | nil => exact .atEnd [] (-1)
  | cons hr r =>
    have h := At.inside [] hr r 0 (by decide)
    rwa [zero_min] at h

theorem At.append (l : List Hostrange) (h : At r i q) :
    At (l ++ r) { i with idx := l.length + i.idx } ((names l).length + q) := by
  cases h with
  | inside l' hr r d hd =>
    have h := At.inside (l ++ l') hr r d hd
    rw [names_append, length_append, length_append, append_assoc] at h
    rwa [← add_assoc]
  | atEnd _ depth =>
    have h := At.atEnd (l ++ r) depth
    rwa [names_append, length_append, length_append] at h

theorem At.prepend (h : At l i q) (hlt : i.idx < l.length) : At (l ++ r) i q := by
  cases h with
  | inside l' hr r' d hd =>
    have h := At.inside l' hr (r' ++ r) d hd
    rwa [append_assoc, cons_append]
  | atEnd _ depth => exact absurd hlt (lt_irrefl _)

/-- **Where an iterator stands relative to a range**: before it, in it or behind it. -/
theorem At.split (h : At (l ++ hr :: r) i q) :
    (i.idx < l.length ∧ At l i q ∧ q ≤ (names l).length) ∨
    (∃ d : Nat, d < 2 ^ 31 ∧ i = ⟨l.length, (d : Int) - 1⟩ ∧ q = (names l).length + min d hr.count) ∨
    ∃ j p, i = ⟨l.length + 1 + j.idx, j.depth⟩ ∧ At r j p ∧ q = (names l).length + hr.count + p := by
  generalize hwhole : l ++ hr :: r = whole at h
  cases h with
  | inside l' hr' r' d hd =>
    rcases append_eq_append_iff.1 hwhole with ⟨c, rfl, hc⟩ | ⟨c, rfl, hc⟩
    · cases c with
      | nil =>
        cases hc
        exact .inr (.inl ⟨d, hd, by rw [append_nil], by rw [append_nil]⟩)
      | cons _ c =>
        cases hc
        refine .inr (.inr ⟨⟨c.length, (d : Int) - 1⟩, _, ?_, .inside c hr' r' d hd, ?_⟩)
        · rw [length_append, length_cons]
          congr 1
          show l.length + (c.length + 1) = l.length + 1 + c.length
          omega
        · rw [length_names_mid]
          omega
    · cases c with
      | nil =>
        cases hc
        exact .inr (.inl ⟨d, hd, by rw [append_nil], by rw [append_nil]⟩)
      | cons _ c =>
        cases hc
        refine .inl ⟨?_, .inside l' hr' c d hd, ?_⟩
        · rw [length_append, length_cons]
          show l'.length < _
          omega
        · rw [length_names_mid]
          omega
  | atEnd _ depth =>
    subst hwhole
    refine .inr (.inr ⟨⟨r.length, depth⟩, _, ?_, .atEnd r depth, ?_⟩)
    · rw [length_append, length_cons]
      congr 1
      show l.length + (r.length + 1) = l.length + 1 + r.length
      omega
    · rw [length_names_mid]

theorem Hostrange.Ok.count_eq (h : hr.Ok) : (hr.count : Int) = hr.hi - hr.lo + 1 := by
  have hle := h.le
  rw [Hostrange.count]
  split_ifs with hs
  · obtain ⟨hlo, hhi, -⟩ := h.single hs
    rw [hlo, hhi]
    rfl
  · omega

/-- What a list must be for the machine numbers not to wrap. -/
structure Narrow (hr : Hostrange) : Prop where
  ok : hr.Ok
  hi : hr.hi < ulongMax
  count : hr.count < 2 ^ 31

theorem bmod_int {x : Int} (h1 : -(2 ^ 31) ≤ x) (h2 : x < 2 ^ 31) : x.bmod (2 ^ 32) = x := by
  apply Int.bmod_eq_of_le <;> omega

theorem ulong_natCast {n : Nat} (h : n < 2 ^ 64) : ulong n = n := by
  rw [ulong]
  omega

theorem getElem?_length : (l ++ hr :: r)[l.length]? = some hr := by
  rw [getElem?_append_right le_rfl, Nat.sub_self, getElem?_cons_zero]

theorem iteratorAdvance_inside (h : Narrow hr) (l r : List Hostrange) (hd : d < 2 ^ 31) :
    iteratorAdvance (l ++ hr :: r) ⟨l.length, (d : Int) - 1⟩ =
      if d < hr.count then ⟨l.length, d⟩ else ⟨l.length + 1, 0⟩ := by
  have hcount := h.ok.count_eq
  have hle := h.ok.le
  have hsmall := h.count
  have hdepth : ((d : Int) - 1 + 1).bmod (2 ^ 32) = d := by
    rw [Int.sub_add_cancel]
    exact bmod_int (by omega) (by omega)
  have hwidth : ulong ((hr.hi : Int) - hr.lo) = hr.count - 1 := by
    rw [ulong]
    omega
  rw [iteratorAdvance, getElem?_length]
  simp only [hdepth, hwidth, ulong_natCast (show d < 2 ^ 64 by omega)]
  split_ifs with h1 h2 h2
  · omega
  · rfl
  · rfl
  · omega

/-- The iterator has just returned the host at position `e`. -/
inductive Current : List Hostrange → Iterator → Nat → Prop
  | mk (l : List Hostrange) (hr : Hostrange) (r : List Hostrange) (d : Nat) (h : d < hr.count) :
      Current (l ++ hr :: r) ⟨l.length, d⟩ ((names l).length + d)

variable {e : Nat}

theorem Current.at (hok : ∀ hr ∈ hl, Narrow hr) (h : Current hl i e) : At hl i (e + 1) := by
  cases h with
  | mk l hr r d hd =>
    have hsmall := (hok hr (by simp)).count
    have h := At.inside l hr r (d + 1) (by omega)
    rw [min_eq_left hd] at h
    have hdepth : ((d + 1 : Nat) : Int) - 1 = d := by omega
    rwa [hdepth] at h

theorem hostlistNext_current (hfit : Fits hl) (h : Current hl (iteratorAdvance hl i) e) :
    ∃ x, (names hl)[e]? = some x ∧ (hostlistNext hl i).1 = some x ∧ Current hl (hostlistNext hl i).2 e := by
  generalize hadvance : iteratorAdvance hl i = i' at h
  cases h with
  | mk l hr r d hd =>
    have hlt : d < hr.names.length := by rwa [Hostrange.length_names]
    have hget := getElem?_eq_getElem hlt
    have hname : (names (l ++ hr :: r))[(names l).length + d]? = some hr.names[d] := by
      rw [names_append, names_cons, getElem?_append_right (Nat.le_add_right _ _),
        Nat.add_sub_cancel_left, getElem?_append_left hlt, hget]
    have hstring := hostrangeString_eq hget (hfit _ (mem_of_getElem? hname))
    refine ⟨_, hname, ?_, ?_⟩
    · rw [hostlistNext, hadvance, getElem?_length]
      exact hstring
    · rw [hostlistNext, hadvance, getElem?_length]
      exact .mk l hr r d hd

theorem hostlistNext_end {depth : Int} (h : iteratorAdvance hl i = ⟨hl.length, depth⟩) :
    (names hl)[(names hl).length]? = none ∧ (hostlistNext hl i).1 = none ∧
      At hl (hostlistNext hl i).2 (names hl).length := by
  have hnone : hl[hl.length]? = none := getElem?_eq_none le_rfl
  rw [hostlistNext, h, hnone]
  exact ⟨getElem?_eq_none le_rfl, rfl, .atEnd hl depth⟩

theorem hostlistNext_at (hok : ∀ hr ∈ hl, Narrow hr) (hfit : Fits hl) (h : At hl i q) :
    ((names hl)[q]? = none ∧ (hostlistNext hl i).1 = none ∧ At hl (hostlistNext hl i).2 q) ∨
    ∃ x, (names hl)[q]? = some x ∧ (hostlistNext hl i).1 = some x ∧ Current hl (hostlistNext hl i).2 q := by
  cases h with
  | inside l hr r d hd =>
    have hadvance := iteratorAdvance_inside (hok hr (by simp)) l r hd
    by_cases hin : d < hr.count
    · -- the next host of the same range
      right
      rw [if_pos hin] at hadvance
      apply hostlistNext_current hfit
      rw [hadvance, min_eq_left hin.le]
      exact .mk l hr r d hin
    · rw [if_neg hin] at hadvance
      have hlen : (names l).length + min d hr.count = (names (l ++ [hr])).length := by
        rw [length_names_mid, min_eq_right (not_lt.1 hin)]
        rfl
      rw [hlen]
      cases r with
      | nil =>
        left
        apply hostlistNext_end
        rw [hadvance, length_append, length_singleton]
      | cons hr' r =>
        -- the first host of the next range
        right
        have hpos : 0 < hr'.count := by
          have := (hok hr' (by simp)).ok.count_eq
          have := (hok hr' (by simp)).ok.le
          omega
        apply hostlistNext_current hfit
        rw [hadvance]
        have h := Current.mk (l ++ [hr]) hr' r 0 hpos
        rw [append_assoc, singleton_append, length_append, length_singleton] at h
        exact h
  | atEnd _ depth =>
    left
    apply hostlistNext_end
    rw [iteratorAdvance, getElem?_eq_none le_rfl]

/-! ## Removal -/

/-- The ranges that stand in the place of a range after the removal of its host at depth `d`. -/
def remains (hr : Hostrange) (d : Nat) : List Hostrange :=
  if hr.count = 1 then []
  else if d = 0 then [hr.part (hr.lo + 1) hr.hi]
  else if d + 1 = hr.count then [hr.part hr.lo (hr.hi - 1)]
  else [hr.part hr.lo (hr.lo + d - 1), hr.part (hr.lo + d + 1) hr.hi]

/-- The iterator that removes, afterwards. -/
def ownAfter (hr : Hostrange) (n d : Nat) : Iterator :=
  if hr.count = 1 then deleteShift n ⟨n, d⟩
  else if d = 0 ∨ d + 1 = hr.count then ⟨n, (d : Int) - 1⟩
  else ⟨n + 1, -1⟩

/-- What happens to the other iterators. -/
def shiftAfter (hr : Hostrange) (n d : Nat) : Iterator → Iterator :=
  if hr.count = 1 then deleteShift n
  else if d = 0 ∨ d + 1 = hr.count then id
  else insertShift (n + 1)

theorem Narrow.singlehost (h : hr.count ≠ 1) : hr.singlehost = false := by
  by_contra hs
  rw [Bool.not_eq_false] at hs
  exact h (by rw [Hostrange.count, if_pos hs])

theorem deleteHost_eq (h : Narrow hr) : hr.deleteHost (hr.lo + d) =
    if d = 0 then (hr.part (hr.lo + 1) hr.hi, none)
    else if d + 1 = hr.count then (hr.part hr.lo (hr.hi - 1), none)
    else (hr.part hr.lo (hr.lo + d - 1), some (hr.part (hr.lo + d + 1) hr.hi)) := by
  have hcount := h.ok.count_eq
  have hmax := h.hi
  have hle := h.ok.le
  rw [ulongMax] at hmax
  have hlo : (hr.lo + 1) % 2 ^ 64 = hr.lo + 1 := mod_eq_of_lt (by omega)
  rw [Hostrange.deleteHost, hlo]
  by_cases h1 : d = 0
  · rw [if_pos (by omega), if_pos h1, Hostrange.part]
  · rw [if_neg (by omega), if_neg h1]
    by_cases h2 : d + 1 = hr.count
    · rw [if_pos (by omega), if_pos h2, Hostrange.part]
    · rw [if_neg (by omega), if_neg h2, Hostrange.part, Hostrange.part]

theorem empty_eq_false (h : Narrow hr) {hr' : Hostrange} (h1 : hr'.lo ≤ hr'.hi) (h2 : hr'.hi ≤ hr.hi) :
    hr'.empty = false := by
  have hmax := h.hi
  rw [Hostrange.empty, Bool.or_eq_false_iff, decide_eq_false_iff_not, decide_eq_false_iff_not]
  omega

/-- **A removal**: what remains of the range, and where the iterators are put. -/
theorem hostlistRemove_eq (h : Narrow hr) (hd : d < hr.count) :
    hostlistRemove (l ++ hr :: r) ⟨l.length, d⟩ =
      some ⟨l ++ remains hr d ++ r, ownAfter hr l.length d, shiftAfter hr l.length d⟩ := by
  have hcount := h.ok.count_eq
  have hmax := h.hi
  have hle := h.ok.le
  rw [ulongMax] at hmax
  have hnum : ulong ((hr.lo : Int) + (d : Int)) = hr.lo + d := by
    rw [← Int.natCast_add]
    exact ulong_natCast (by omega)
  have hleft : (l ++ hr :: r).take l.length = l := take_left
  have hright : (l ++ hr :: r).drop (l.length + 1) = r := by
    rw [append_cons, ← length_singleton, ← length_append, drop_left]
  rw [hostlistRemove, getElem?_length]
  simp only [Option.map_some, hleft, hright, hnum, deleteHost_eq h]
  congr 1
  by_cases h1 : hr.count = 1
  · -- the last host of the range
    obtain rfl : d = 0 := by omega
    have hempty : (hr.part (hr.lo + 1) hr.hi).empty = true := by
      rw [Hostrange.empty, Bool.or_eq_true, decide_eq_true_eq]
      exact .inl (show hr.hi < hr.lo + 1 by omega)
    simp only [if_true, hempty, remains, ownAfter, shiftAfter, if_pos h1, append_nil]
  · by_cases h2 : d = 0
    · have hempty : (hr.part (hr.lo + 1) hr.hi).empty = false :=
        empty_eq_false h (show hr.lo + 1 ≤ hr.hi by omega) le_rfl
      simp only [hempty, Bool.false_eq_true, if_false, remains, ownAfter, shiftAfter, if_neg h1,
        h2, true_or, if_true, append_assoc, singleton_append]
    · by_cases h3 : d + 1 = hr.count
      · have hempty : (hr.part hr.lo (hr.hi - 1)).empty = false :=
          empty_eq_false h (show hr.lo ≤ hr.hi - 1 by omega) (sub_le _ _)
        simp only [if_neg h2, if_pos h3, hempty, Bool.false_eq_true, if_false, remains, ownAfter, shiftAfter,
          if_neg h1, if_pos (Or.inr h3), append_assoc, singleton_append]
      · simp only [remains, ownAfter, shiftAfter, if_neg h1, h2, h3, or_self, if_false,
          append_assoc, cons_append, nil_append]

/-! ### The names -/

theorem eraseIdx_range' {a c : Nat} (hd : d < c) :
    (range' a c).eraseIdx d = range' a d ++ range' (a + d + 1) (c - d - 1) := by
  have hsplit : range' a c = range' a d ++ (a + d) :: range' (a + d + 1) (c - d - 1) := by
    rw [← range'_succ, range'_append_1]
    congr 1
    omega
  have hlen : (range' a d).length = d := length_range'
  rw [hsplit, eraseIdx_append_of_length_le (by omega), hlen, Nat.sub_self, eraseIdx_cons_zero]

theorem names_remains (h : Narrow hr) (hd : d < hr.count) : names (remains hr d) = hr.names.eraseIdx d := by
  have hcount := h.ok.count_eq
  have hle := h.ok.le
  by_cases h1 : hr.count = 1
  · have hlen : (hr.names.eraseIdx d).length = 0 := by
      rw [length_eraseIdx, Hostrange.length_names, if_pos hd]
      omega
    rw [remains, if_pos h1, length_eq_zero_iff.1 hlen, names_nil]
  · have hs := Narrow.singlehost h1
    have hnames : hr.names = (range' hr.lo (hr.hi + 1 - hr.lo)).map hr.nameOf :=
      Hostrange.names_part hs hr.lo hr.hi
    rw [hnames, eraseIdx_map, eraseIdx_range' (by omega), map_append, remains, if_neg h1]
    split_ifs with h2 h3
    · subst h2
      rw [names_cons, names_nil, append_nil, Hostrange.names_part hs, range'_zero, map_nil, nil_append]
      congr 2
    · have hnone : hr.hi + 1 - hr.lo - d - 1 = 0 := by omega
      have hlast : hr.hi - 1 + 1 - hr.lo = d := by omega
      rw [names_cons, names_nil, append_nil, Hostrange.names_part hs, hnone, hlast, range'_zero, map_nil, append_nil]
    · have hfirst : hr.lo + d - 1 + 1 - hr.lo = d := by omega
      have hsecond : hr.hi + 1 - (hr.lo + d + 1) = hr.hi + 1 - hr.lo - d - 1 := by omega
      rw [names_cons, names_cons, names_nil, append_nil, Hostrange.names_part hs,
        Hostrange.names_part hs, hfirst, hsecond]

theorem names_removal (h : Narrow hr) (hd : d < hr.count) :
    names (l ++ remains hr d ++ r) = (names (l ++ hr :: r)).eraseIdx ((names l).length + d) := by
  have hlt : d < hr.names.length := by rwa [Hostrange.length_names]
  rw [names_append, names_append, names_remains h hd, names_append, names_cons,
    eraseIdx_append_of_length_le (Nat.le_add_right _ _), Nat.add_sub_cancel_left,
    eraseIdx_append_of_lt_length hlt, append_assoc]

theorem length_names_remains (h : Narrow hr) (hd : d < hr.count) : (names (remains hr d)).length = hr.count - 1 := by
  rw [names_remains h hd, length_eraseIdx, Hostrange.length_names, if_pos hd]

theorem narrow_remains (h : Narrow hr) (hd : d < hr.count) {hr' : Hostrange} (hmem : hr' ∈ remains hr d) :
    Narrow hr' := by
  have hcount := h.ok.count_eq
  have hle := h.ok.le
  have hmax := h.hi
  have hsmall := h.count
  by_cases h1 : hr.count = 1
  · rw [remains, if_pos h1] at hmem
    exact absurd hmem not_mem_nil
  · have hs := Narrow.singlehost h1
    have hpart : ∀ lo hi, lo ≤ hi → hr.lo ≤ lo → hi ≤ hr.hi → Narrow (hr.part lo hi) := by
      intro lo hi hle' hlo hhi
      have hcount' := Hostrange.count_part hs lo hi
      refine ⟨⟨hle', fun h => absurd (h.symm.trans hs) Bool.true_eq_false.mp⟩, ?_, by omega⟩
      exact hhi.trans_lt hmax
    rw [remains, if_neg h1] at hmem
    split_ifs at hmem with h2 h3
    · rw [mem_singleton.1 hmem]
      exact hpart _ _ (by omega) (by omega) le_rfl
    · rw [mem_singleton.1 hmem]
      exact hpart _ _ (by omega) le_rfl (by omega)
    · rcases mem_cons.1 hmem with rfl | hmem
      · exact hpart _ _ (by omega) le_rfl (by omega)
      · rw [mem_singleton.1 hmem]
        exact hpart _ _ (by omega) (by omega) le_rfl

/-! ### The iterators -/

/-- When the range of `own` goes, an iterator `j` in it is put into the range before at its old depth:
    it must be at the end of that range then. -/
def fallsBack (hl : List Hostrange) (own j : Iterator) : Bool :=
  decide (own.idx = 0) || (hl[own.idx - 1]?).all fun pr => decide ((pr.count : Int) ≤ j.depth + 1)

/-- The iterator that removes keeps its place. -/
def ownRepaired (hl : List Hostrange) (own : Iterator) : Bool :=
  (hl[own.idx]?).all fun hr => decide (hr.count ≠ 1) || fallsBack hl own own

/-- Another iterator `j` keeps its place: it stands in another range; or the range goes and it falls back
    to the right place; or the first host goes and it is at either end of the range; or the last host
    goes; or it is not deeper than the host that goes. -/
def repaired (hl : List Hostrange) (own j : Iterator) : Bool :=
  decide (j.idx ≠ own.idx) || (hl[own.idx]?).all fun hr =>
    if hr.count = 1 then fallsBack hl own j
    else if own.depth = 0 then decide (j.depth = -1) || decide ((hr.count : Int) ≤ j.depth + 1)
    else decide (own.depth + 1 = hr.count) || decide (j.depth ≤ own.depth)

theorem at_fallsBack {own : Iterator} {d' : Nat} (hown : own.idx = l.length) (hd' : d' < 2 ^ 31)
    (h : fallsBack (l ++ hr :: r) own ⟨l.length, (d' : Int) - 1⟩ = true) :
    At (l ++ r) (deleteShift l.length ⟨l.length, (d' : Int) - 1⟩) (names l).length := by
  rw [deleteShift, if_pos le_rfl]
  rcases eq_nil_or_concat l with rfl | ⟨l', pr, rfl⟩
  · exact at_reset
  · rw [concat_eq_append] at hown h ⊢
    have hlen : (l' ++ [pr]).length = l'.length + 1 := by rw [length_append, length_singleton]
    have hprev : (l' ++ [pr] ++ hr :: r)[own.idx - 1]? = some pr := by
      rw [hown, hlen, append_assoc, singleton_append, Nat.add_sub_cancel]
      exact getElem?_length
    rw [fallsBack, hprev, hown, hlen, Option.all_some, Bool.or_eq_true, decide_eq_true_eq, decide_eq_true_eq] at h
    have hcount : pr.count ≤ d' := by
      have hback := h.resolve_left (Nat.succ_ne_zero _)
      have hback : (pr.count : Int) ≤ (d' : Int) - 1 + 1 := hback
      omega
    have hat := At.inside l' pr r d' hd'
    rw [Nat.min_eq_right hcount] at hat
    have hnames : (names (l' ++ [pr])).length = (names l').length + pr.count := length_names_mid l' pr []
    have hidx : (l' ++ [pr]).length - 1 = l'.length := by omega
    rw [if_pos (by show 1 ≤ (l' ++ [pr]).length; omega), hnames, append_assoc, singleton_append]
    simp only [hidx]
    exact hat

theorem at_part {lo hi d' : Nat} {r' : List Hostrange} (hs : hr.singlehost = false) (hd' : d' < 2 ^ 31)
    (hq : q = (names l).length + min d' (hi + 1 - lo)) :
    At (l ++ hr.part lo hi :: r' ++ r) ⟨l.length, (d' : Int) - 1⟩ q := by
  rw [hq, ← Hostrange.count_part hs, append_assoc, cons_append]
  exact .inside l _ _ d' hd'

theorem at_repaired_same {d' : Nat} (h : Narrow hr) (hd : d < hr.count) (hd' : d' < 2 ^ 31)
    (hrep : repaired (l ++ hr :: r) ⟨l.length, d⟩ ⟨l.length, (d' : Int) - 1⟩ = true) :
    At (l ++ remains hr d ++ r) (shiftAfter hr l.length d ⟨l.length, (d' : Int) - 1⟩)
      (moved ((names l).length + d) ((names l).length + min d' hr.count)) := by
  have hcount := h.ok.count_eq
  have hle := h.ok.le
  rw [repaired, getElem?_length, Option.all_some, decide_eq_false (not_not.2 rfl), Bool.false_or] at hrep
  by_cases h1 : hr.count = 1
  · obtain rfl : d = 0 := by omega
    rw [if_pos h1] at hrep
    have hat := at_fallsBack rfl hd' hrep
    have hmoved : moved ((names l).length + 0) ((names l).length + min d' hr.count) = (names l).length := by
      rw [moved]
      split_ifs <;> omega
    rw [remains, shiftAfter, if_pos h1, if_pos h1, append_nil, hmoved]
    exact hat
  · have hs := Narrow.singlehost h1
    rw [if_neg h1] at hrep
    rw [remains, if_neg h1, shiftAfter, if_neg h1]
    by_cases h2 : d = 0
    · -- the first host: only an iterator at either end of the range keeps its place
      have hends : d' = 0 ∨ hr.count ≤ d' := by
        simp only [h2, cast_zero, if_true, Bool.or_eq_true, decide_eq_true_eq] at hrep
        omega
      rw [if_pos h2, if_pos (.inl h2)]
      refine at_part hs hd' ?_
      rw [moved]
      split_ifs <;> omega
    · rw [if_neg h2]
      by_cases h3 : d + 1 = hr.count
      · rw [if_pos h3, if_pos (.inr h3)]
        refine at_part hs hd' ?_
        rw [moved]
        split_ifs <;> omega
      · -- the range is split: only an iterator that is not deeper keeps its place
        have hshallow : d' ≤ d + 1 := by
          rw [if_neg (show ¬(d : Int) = 0 by omega), Bool.or_eq_true, decide_eq_true_eq, decide_eq_true_eq] at hrep
          rcases hrep with hrep | hrep
          · have hrep : (d : Int) + 1 = hr.count := hrep
            omega
          · have hrep : (d' : Int) - 1 ≤ d := hrep
            omega
        rw [if_neg h3, if_neg (by omega), insertShift, if_neg (by show ¬l.length + 1 ≤ l.length; omega)]
        refine at_part hs hd' ?_
        rw [moved]
        split_ifs <;> omega

theorem length_remains : (remains hr d).length =
    if hr.count = 1 then 0 else if d = 0 ∨ d + 1 = hr.count then 1 else 2 := by
  rw [remains]
  split_ifs <;> first | rfl | omega

theorem shiftAfter_of_lt {n : Nat} (h : i.idx < n) : shiftAfter hr n d i = i := by
  rw [shiftAfter]
  split_ifs
  · exact if_neg (by omega)
  · rfl
  · exact if_neg (by omega)

theorem shiftAfter_of_gt (n d k : Nat) (depth : Int) :
    shiftAfter hr n d ⟨n + 1 + k, depth⟩ = ⟨n + (remains hr d).length + k, depth⟩ := by
  rw [shiftAfter, length_remains]
  split_ifs
  · rw [deleteShift, if_pos (by show n ≤ n + 1 + k; omega), if_pos (by show 1 ≤ n + 1 + k; omega)]
    congr 1
    show n + 1 + k - 1 = n + 0 + k
    omega
  · rfl
  · rw [insertShift, if_pos (by show n + 1 ≤ n + 1 + k; omega)]
    congr 1
    show n + 1 + k + 1 = n + 2 + k
    omega

variable {rm : Removal}

section

variable (hok : ∀ hr ∈ hl, Narrow hr)
include hok

/-- **Another iterator keeps its place** when the host at position `e` is removed. -/
theorem at_repaired {own j : Iterator}
    (hown : Current hl own e) (hrm : hostlistRemove hl own = some rm) (hat : At hl j q)
    (hrep : repaired hl own j = true) : At rm.hl (rm.shift j) (moved e q) := by
  cases hown with
  | mk l hr r d hd =>
    have h := hok hr (by simp)
    rw [hostlistRemove_eq h hd] at hrm
    cases hrm
    show At (l ++ remains hr d ++ r) (shiftAfter hr l.length d j) _
    rcases hat.split with ⟨hlt, hleft, hq⟩ | ⟨d', hd', rfl, rfl⟩ | ⟨k, p, rfl, hright, rfl⟩
    · have hmoved : moved ((names l).length + d) q = q := if_pos (by omega)
      rw [shiftAfter_of_lt hlt, hmoved, append_assoc]
      exact hleft.prepend hlt
    · exact at_repaired_same h hd hd' hrep
    · have hmoved : moved ((names l).length + d) ((names l).length + hr.count + p) =
          (names (l ++ remains hr d)).length + p := by
        rw [moved, if_neg (by omega), names_append, length_append, length_names_remains h hd]
        omega
      rw [shiftAfter_of_gt, hmoved, ← length_append]
      exact hright.append _

theorem at_ownRepaired {own : Iterator}
    (hown : Current hl own e) (hrm : hostlistRemove hl own = some rm) (hrep : ownRepaired hl own = true) :
    At rm.hl rm.own e := by
  cases hown with
  | mk l hr r d hd =>
    have h := hok hr (by simp)
    have hcount := h.ok.count_eq
    have hle := h.ok.le
    rw [hostlistRemove_eq h hd] at hrm
    cases hrm
    show At (l ++ remains hr d ++ r) (ownAfter hr l.length d) _
    by_cases h1 : hr.count = 1
    · obtain rfl : d = 0 := by omega
      rw [ownRepaired, getElem?_length, Option.all_some, decide_eq_false (not_not.2 h1), Bool.false_or] at hrep
      rw [remains, ownAfter, if_pos h1, if_pos h1, append_nil, add_zero]
      exact @at_fallsBack l r hr _ 1 rfl (by decide) hrep
    · have hs := Narrow.singlehost h1
      rw [remains, if_neg h1, ownAfter, if_neg h1]
      have hsmall := h.count
      by_cases h2 : d = 0
      · rw [if_pos h2, if_pos (.inl h2)]
        exact at_part hs (by omega) (by omega)
      · rw [if_neg h2]
        by_cases h3 : d + 1 = hr.count
        · rw [if_pos h3, if_pos (.inr h3)]
          exact at_part hs (by omega) (by omega)
        · have hat := At.inside (l ++ [hr.part hr.lo (hr.lo + d - 1)]) (hr.part (hr.lo + d + 1) hr.hi) r 0
            (by decide)
          have hfirst : (names (l ++ [hr.part hr.lo (hr.lo + d - 1)])).length = (names l).length + d := by
            have hlen := length_names_mid l (hr.part hr.lo (hr.lo + d - 1)) []
            rw [Hostrange.count_part hs] at hlen
            rw [hlen]
            show _ + 0 = _
            omega
          rw [zero_min, hfirst, append_assoc, singleton_append, length_append, length_singleton] at hat
          rw [if_neg h3, if_neg (by omega), append_assoc]
          exact hat

theorem Current.remove (h : Current hl i e) (hrm : hostlistRemove hl i = some rm) : e < (names hl).length ∧
      names rm.hl = (names hl).eraseIdx e ∧ ∀ hr ∈ rm.hl, Narrow hr := by
  cases h with
  | mk l hr r d hd =>
    have hnarrow := hok hr (by simp)
    rw [hostlistRemove_eq hnarrow hd] at hrm
    cases hrm
    refine ⟨?_, names_removal hnarrow hd, ?_⟩
    · rw [length_names_mid]
      omega
    · intro hr' hmem
      rcases mem_append.1 hmem with hmem | hmem
      · rcases mem_append.1 hmem with hmem | hmem
        · exact hok hr' (by simp [hmem])
        · exact narrow_remains hnarrow hd hmem
      · exact hok hr' (by simp [hmem])

end

/-! ## Sessions -/

/-- An iterator and the names it has returned. -/
structure Reader where
  it : Iterator
  out : List Text

/-- A list on which one iterator removes hosts while others read.  `removed` holds the positions, in the
    order of the names `own` has returned, of the hosts that were removed; `current` says whether `own`
    has a host that it can still remove. -/
structure Session where
  hl : List Hostrange
  nhosts : Int
  own : Reader
  current : Bool
  removed : List Nat
  others : List Reader

inductive Act where
  | next
  | remove
  | create
  | read (k : Nat)

def Reader.next (hl : List Hostrange) (r : Reader) : Reader :=
  ⟨(hostlistNext hl r.it).2, r.out ++ (hostlistNext hl r.it).1.toList⟩

def Session.apply (s : Session) (rm : Removal) : Session :=
  { hl := rm.hl
    nhosts := s.nhosts - 1
    own := { s.own with it := rm.own }
    current := false
    removed := s.removed ++ [s.own.out.length - 1]
    others := s.others.map fun r => { r with it := rm.shift r.it } }

def session : Machine Session Act where
  step s
    | .next => some { s with own := s.own.next s.hl, current := (hostlistNext s.hl s.own.it).1.isSome }
    | .remove => if s.current then (hostlistRemove s.hl s.own.it).map s.apply else none
    | .create => some { s with others := s.others ++ [⟨iteratorReset, []⟩] }
    | .read k => (s.others[k]?).map fun r => { s with others := s.others.set k (r.next s.hl) }

def Session.start (l : List Hostrange) : Session :=
  ⟨l, (names l).length, ⟨iteratorReset, []⟩, false, [], []⟩

/-- Every iterator keeps its place when a host is removed. -/
def Careful (s : Session) : Act → Prop
  | .remove => ownRepaired s.hl s.own.it = true ∧ ∀ r ∈ s.others, repaired s.hl s.own.it r.it = true
  | _ => True

instance (s : Session) (a : Act) : Decidable (Careful s a) :=
  match a with
  | .remove => inferInstanceAs (Decidable (_ ∧ _))
  | .next | .create | .read _ => isTrue trivial

/-- The positions of the hosts that are left. -/
def kept (l : List Hostrange) (removed : List Nat) : List Nat :=
  (range (names l).length).filter fun k => decide (k ∉ removed)

variable {removed seen : List Nat} {s t : Session} {e m : Nat}

theorem pairwise_kept : (kept l removed).Pairwise (· < ·) :=
  pairwise_lt_range.filter _

theorem kept_snoc (h : (kept l removed)[e]? = some m) : kept l (removed ++ [m]) = (kept l removed).eraseIdx e := by
  rw [← filter_ne_eq_eraseIdx (pairwise_kept.imp ne_of_lt) h, kept, kept, filter_filter]
  refine filter_congr fun k _ => ?_
  simp only [mem_append, mem_singleton, not_or, ← Bool.decide_and, and_comm]

/-- The list has the names at the positions that are left. -/
def Left (l hl : List Hostrange) (removed : List Nat) : Prop :=
  (names hl).map some = (kept l removed).map ((names l)[·]?)

theorem Left.getElem? (h : Left l hl removed) (q : Nat) :
    (names hl)[q]? = ((kept l removed)[q]?).bind ((names l)[·]?) := by
  have hq := congrArg (·[q]?) h
  simp only [getElem?_map] at hq
  cases hk : (kept l removed)[q]? with
  | none =>
    rw [hk] at hq
    exact Option.map_eq_none_iff.1 hq
  | some k =>
    rw [hk, Option.map_some] at hq
    obtain ⟨x, hx, hxk⟩ := Option.map_eq_some_iff.1 hq
    rw [hx, hxk, Option.bind_some]

theorem Left.fits (h : Left l hl removed) (hfit : Fits l) : Fits hl := by
  intro x hx
  have hsome : some x ∈ (kept l removed).map ((names l)[·]?) := h ▸ mem_map_of_mem hx
  obtain ⟨k, -, hk⟩ := mem_map.1 hsome
  exact hfit x (mem_of_getElem? hk)

def Reading (l hl : List Hostrange) (removed : List Nat) (r : Reader) : Prop :=
  ∃ q seen, At hl r.it q ∧ Follows (kept l removed) q seen ∧ r.out.map some = seen.map ((names l)[·]?)

structure Session.Inv (l : List Hostrange) (s : Session) : Prop where
  narrow : ∀ hr ∈ s.hl, Narrow hr
  left : Left l s.hl s.removed
  nhosts : s.nhosts = (names s.hl).length
  out : s.own.out = (names l).take s.own.out.length
  own : ∃ q, At s.hl s.own.it q ∧ Leads (names l).length (kept l s.removed) q s.own.out.length
  current : s.current = true → ∃ e, Current s.hl s.own.it e ∧ 0 < s.own.out.length ∧
    (kept l s.removed)[e]? = some (s.own.out.length - 1) ∧
    Leads (names l).length (kept l s.removed) (e + 1) s.own.out.length
  others : ∀ r ∈ s.others, Reading l s.hl s.removed r

theorem reading_start : Reading l hl removed ⟨iteratorReset, []⟩ :=
  ⟨0, [], at_reset, follows_start, rfl⟩

theorem inv_start (hok : ∀ hr ∈ l, Narrow hr) : (Session.start l).Inv l := by
  have hkept : kept l [] = range (names l).length := by
    rw [kept, filter_eq_self]
    intro k _
    exact decide_eq_true not_mem_nil
  refine ⟨hok, ?_, rfl, rfl, ⟨0, at_reset, ?_⟩, fun h => absurd h Bool.false_ne_true, ?_⟩
  · show (names l).map some = (kept l []).map _
    rw [hkept]
    apply ext_getElem?
    intro k
    rw [getElem?_map, getElem?_map]
    by_cases hk : k < (names l).length
    · rw [getElem?_range hk, getElem?_eq_getElem hk, Option.map_some, Option.map_some]
      exact congrArg some (getElem?_eq_getElem hk).symm
    · rw [getElem?_eq_none (not_lt.1 hk), getElem?_eq_none (by rw [length_range]; omega),
        Option.map_none, Option.map_none]
  · show Leads _ (kept l []) 0 0
    rw [hkept]
    exact leads_start
  · intro r hr
    exact absurd hr not_mem_nil

theorem Session.Inv.next_eq (hfit : Fits l) (h : s.Inv l) :
    (hostlistNext s.hl s.own.it).1 = (names l)[s.own.out.length]? := by
  obtain ⟨q, hat, hleads⟩ := h.own
  have hq := h.left.getElem? q
  rw [hleads.getElem?] at hq
  have hnext : (hostlistNext s.hl s.own.it).1 = (names s.hl)[q]? := by
    rcases hostlistNext_at h.narrow (h.left.fits hfit) hat with ⟨h1, h2, -⟩ | ⟨x, h1, h2, -⟩ <;> rw [h1, h2]
  rw [hnext, hq]
  split_ifs with hm
  · rfl
  · exact (getElem?_eq_none (not_lt.1 hm)).symm

theorem inv_next (hfit : Fits l) (h : s.Inv l) :
    Session.Inv l { s with own := s.own.next s.hl, current := (hostlistNext s.hl s.own.it).1.isSome } := by
  obtain ⟨q, hat, hleads⟩ := h.own
  have hq := h.left.getElem? q
  rw [hleads.getElem?] at hq
  rcases hostlistNext_at h.narrow (h.left.fits hfit) hat with ⟨-, hnone, hat'⟩ | ⟨x, hx, hsome, hcur⟩
  · -- NULL: nothing is returned
    have hout : (s.own.next s.hl).out = s.own.out := by
      rw [Reader.next, hnone, Option.toList_none, append_nil]
    refine ⟨h.narrow, h.left, h.nhosts, ?_, ⟨q, hat', ?_⟩, ?_, h.others⟩
    · rw [hout]
      exact h.out
    · rw [hout]
      exact hleads
    · rw [hnone]
      exact fun hc => absurd hc Bool.false_ne_true
  · have hout : (s.own.next s.hl).out = s.own.out ++ [x] := by
      rw [Reader.next, hsome, Option.toList_some]
    have hlen : (s.own.next s.hl).out.length = s.own.out.length + 1 := by
      rw [hout, length_append, length_singleton]
    have hm : s.own.out.length < (names l).length := by
      by_contra hm
      rw [hx, if_neg hm] at hq
      cases hq
    rw [hx, if_pos hm, Option.bind_some] at hq
    have hleads' := hleads.next hm
    refine ⟨h.narrow, h.left, h.nhosts, ?_, ⟨q + 1, hcur.at h.narrow, ?_⟩, ?_, h.others⟩
    · rw [hlen, take_add_one, ← h.out, ← hq, Option.toList_some, hout]
    · rw [hlen]
      exact hleads'
    · intro _
      refine ⟨q, hcur, ?_, ?_, ?_⟩
      · rw [hlen]
        exact Nat.succ_pos _
      · rw [hlen, hleads.getElem?, if_pos hm, Nat.add_sub_cancel]
      · rw [hlen]
        exact hleads'

theorem inv_read {k : Nat} {r : Reader} (hfit : Fits l) (h : s.Inv l) (hr : s.others[k]? = some r) :
    Session.Inv l { s with others := s.others.set k (r.next s.hl) } := by
  refine ⟨h.narrow, h.left, h.nhosts, h.out, h.own, h.current, ?_⟩
  intro r' hr'
  rcases mem_or_eq_of_mem_set hr' with hr' | rfl
  · exact h.others r' hr'
  · obtain ⟨q, seen, hat, hfollows, hout⟩ := h.others r (mem_of_getElem? hr)
    have hq := h.left.getElem? q
    rcases hostlistNext_at h.narrow (h.left.fits hfit) hat with ⟨-, hnone, hat'⟩ | ⟨x, hx, hsome, hcur⟩
    · refine ⟨q, seen, hat', hfollows, ?_⟩
      rw [Reader.next, hnone, Option.toList_none, append_nil]
      exact hout
    · rw [hx] at hq
      obtain ⟨m, hm, hmx⟩ := Option.bind_eq_some_iff.1 hq.symm
      refine ⟨q + 1, seen ++ [m], hcur.at h.narrow, hfollows.next pairwise_kept hm, ?_⟩
      rw [Reader.next, hsome, Option.toList_some, map_append, map_append, hout, map_singleton, map_singleton, hmx]

theorem inv_remove (h : s.Inv l) (hcur : s.current = true)
    (hrm : hostlistRemove s.hl s.own.it = some rm) (hown : ownRepaired s.hl s.own.it = true)
    (hothers : ∀ r ∈ s.others, repaired s.hl s.own.it r.it = true) : (s.apply rm).Inv l := by
  obtain ⟨e, hcurrent, hpos, hkept, hleads⟩ := h.current hcur
  have hsnoc := kept_snoc hkept
  have hat := at_ownRepaired h.narrow hcurrent hrm hown
  obtain ⟨he, hnames, hnarrow⟩ := hcurrent.remove h.narrow hrm
  refine ⟨hnarrow, ?_, ?_, h.out, ⟨e, hat, ?_⟩, fun hc => absurd hc Bool.false_ne_true, ?_⟩
  · show (names rm.hl).map some = (kept l (s.removed ++ [_])).map _
    rw [hsnoc, hnames, ← eraseIdx_map, h.left, eraseIdx_map]
  · show s.nhosts - 1 = (names rm.hl).length
    rw [hnames, length_eraseIdx, if_pos he, h.nhosts]
    omega
  · show Leads _ (kept l (s.removed ++ [_])) e _
    have herase := hleads.erase (Nat.lt_succ_self e)
    rw [moved, if_neg (by omega), Nat.add_sub_cancel] at herase
    rw [hsnoc]
    exact herase
  · intro r' hr'
    obtain ⟨r, hr, rfl⟩ := mem_map.1 hr'
    obtain ⟨q, seen, hat, hfollows, hout⟩ := h.others r hr
    refine ⟨moved e q, seen, at_repaired h.narrow hcurrent hrm hat (hothers r hr), ?_, hout⟩
    show Follows (kept l (s.removed ++ [_])) _ _
    rw [hsnoc]
    exact hfollows.erase e

theorem inv_step {a : Act} (hfit : Fits l) (h : s.Inv l) (hcareful : Careful s a)
    (hstep : session.step s a = some t) : t.Inv l := by
  cases a with
  | next =>
    cases hstep
    exact inv_next hfit h
  | remove =>
    obtain ⟨hcur, hstep⟩ := Option.ite_none_right_eq_some.1 hstep
    obtain ⟨rm, hrm, rfl⟩ := Option.map_eq_some_iff.1 hstep
    exact inv_remove h hcur hrm hcareful.1 hcareful.2
  | create =>
    cases hstep
    exact ⟨h.narrow, h.left, h.nhosts, h.out, h.own, h.current,
      forall_mem_append.2 ⟨h.others, forall_mem_singleton.2 reading_start⟩⟩
  | read k =>
    obtain ⟨r, hr, rfl⟩ := Option.map_eq_some_iff.1 hstep
    exact inv_read hfit h hr

/-- **Iteration with removal.**  In every session in which the iterators keep their places:
    the iterator that removes has returned the first names of the original list, and returns the next one
    or NULL at its end; the list has exactly the hosts not removed; and every other iterator has returned
    hosts in the order of the original list, none twice, and if it returns NULL next none of the hosts
    that are left is missing. -/
theorem iteration_with_removal (hok : ∀ hr ∈ l, Narrow hr) (hfit : Fits l)
    (h : session.Reach Careful (Session.start l) s) :
    s.own.out = (names l).take s.own.out.length ∧
    (hostlistNext s.hl s.own.it).1 = (names l)[s.own.out.length]? ∧
    (names s.hl).map some = (kept l s.removed).map ((names l)[·]?) ∧
    s.nhosts = (names s.hl).length ∧
    ∀ r ∈ s.others, ∃ seen : List Nat, seen.Pairwise (· < ·) ∧
      r.out.map some = seen.map ((names l)[·]?) ∧
      ((hostlistNext s.hl r.it).1 = none → ∀ k ∈ kept l s.removed, k ∈ seen) := by
  have hinv : s.Inv l := h.invariant (inv_start hok) fun _ _ _ hi hc hs => inv_step hfit hi hc hs
  refine ⟨hinv.out, hinv.next_eq hfit, hinv.left, hinv.nhosts, ?_⟩
  intro r hr
  obtain ⟨q, seen, hat, hfollows, hout⟩ := hinv.others r hr
  refine ⟨seen, hfollows.sorted, hout, ?_⟩
  intro hnull k hk
  refine hfollows.complete ?_ hk
  -- NULL is returned at the end of the list only
  have hq := congrArg length hinv.left
  rw [length_map, length_map] at hq
  rcases hostlistNext_at hinv.narrow (hinv.left.fits hfit) hat with ⟨hnone, -, -⟩ | ⟨x, -, hsome, -⟩
  · rw [getElem?_eq_none_iff] at hnone ⊢
    omega
  · rw [hsome] at hnull
    cases hnull

/-- The list `a1,b[1-4]`. -/
def aAndB : List Hostrange := [.create "a".toList 1 1 1, .create "b".toList 1 4 1]

/-- `b2` and, at the end of the range, `b4` are removed while another iterator is at `b1`. -/
def removeTwo : List Act :=
  [.create, .next, .next, .read 0, .read 0, .next, .remove, .next, .next, .remove, .read 0, .read 0, .next]

theorem iteration_with_removal_two :
    (∃ s, session.run (Session.start aAndB) removeTwo = some s ∧
      s.own.out = names aAndB ∧ s.others.map Reader.out = [["a1".toList, "b1".toList, "b3".toList]] ∧
      s.own.out = (names aAndB).take s.own.out.length ∧
      (hostlistNext s.hl s.own.it).1 = (names aAndB)[s.own.out.length]? ∧
      (names s.hl).map some = (kept aAndB s.removed).map ((names aAndB)[·]?) ∧
      s.nhosts = (names s.hl).length ∧
      ∀ r ∈ s.others, ∃ seen : List Nat, seen.Pairwise (· < ·) ∧
        r.out.map some = seen.map ((names aAndB)[·]?) ∧
        ((hostlistNext s.hl r.it).1 = none → ∀ k ∈ kept aAndB s.removed, k ∈ seen)) := by
  obtain ⟨s, hs⟩ := Option.isSome_iff_exists.1
    (show (session.run (Session.start aAndB) removeTwo).isSome = true by decide)
  have hout : (session.run (Session.start aAndB) removeTwo).map (fun s => (s.own.out, s.others.map Reader.out)) =
      some (names aAndB, [["a1".toList, "b1".toList, "b3".toList]]) := by decide
  rw [hs, Option.map_some, Option.some_inj, Prod.mk.injEq] at hout
  refine ⟨s, hs, hout.1, hout.2, iteration_with_removal ?_ ?_ (.of_run removeTwo .start (by decide) hs)⟩
  · intro hr hmem
    simp only [aAndB, mem_cons, not_mem_nil, or_false] at hmem
    rcases hmem with rfl | rfl <;> exact ⟨Hostrange.ok_create (by decide), by decide, by decide⟩
  · unfold Fits
    decide

/-- In the list `a[1-3],b1` the removal of `b1` puts the iterator back into the range before: it returns
    `a2` again. -/
theorem removal_repeats_host :
    (session.run (Session.start [.create "a".toList 1 3 1, .create "b".toList 1 1 1])
        [.next, .next, .next, .next, .remove, .next]).map (fun s => s.own.out) =
      some ["a1".toList, "a2".toList, "a3".toList, "b1".toList, "a2".toList] := by
  decide

end Slurmpp.Hostlist
