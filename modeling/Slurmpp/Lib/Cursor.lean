/-
  Cursors over a list from which elements are erased.  A cursor stands before an element and has returned those in
  `seen`; when the element it stands before is erased, it stands before the next (`moved`).

  1. `Follows` — what a cursor has returned is in increasing order, has everything before it, and everything behind it
     is still to come.  Both moves keep it, and at the end nothing that is left is missing (`Follows.complete`).
  2. `Leads` — a cursor behind which nothing has been erased yet: it returns 0, 1, 2, …
-/
import Mathlib

namespace Slurmpp.Cursor

open List

/-- The new index of a cursor when the element at `e` is erased. -/
def moved (e q : Nat) : Nat := if q ≤ e then q else q - 1

/-- A cursor at `q` that has returned `seen`. -/
structure Follows (kept : List Nat) (q : Nat) (seen : List Nat) : Prop where
  sorted : seen.Pairwise (· < ·)
  before : ∀ x ∈ kept.take q, x ∈ seen
  behind : ∀ x ∈ seen, ∀ y ∈ kept.drop q, x < y

/-- A cursor at `q` that has returned the numbers below `m`, with all others below `n` behind it. -/
structure Leads (n : Nat) (kept : List Nat) (q m : Nat) : Prop where
  le : m ≤ n
  behind : kept.drop q = range' m (n - m)

variable {kept seen : List Nat} {n q m e x : Nat}

theorem drop_moved (h : q ≤ e) : (kept.eraseIdx e).drop (moved e q) = (kept.drop q).eraseIdx (e - q) := by
  rw [moved, if_pos h]
  apply ext_getElem?
  intro k
  rw [getElem?_drop, getElem?_eraseIdx, getElem?_eraseIdx, getElem?_drop, getElem?_drop, Nat.add_assoc]
  split_ifs <;> first | rfl | omega

theorem drop_moved_of_lt (h : e < q) : (kept.eraseIdx e).drop (moved e q) = kept.drop q := by
  rw [moved, if_neg (Nat.not_le.2 h)]
  apply ext_getElem?
  intro k
  rw [getElem?_drop, getElem?_eraseIdx, if_neg (by omega), getElem?_drop]
  congr 1
  omega

theorem take_moved : ((kept.eraseIdx e).take (moved e q)).Sublist (kept.take q) := by
  by_cases h : q ≤ e
  · rw [moved, if_pos h, take_eraseIdx_eq_take_of_le _ _ _ h]
  · have htake : (kept.eraseIdx e).take (moved e q) = (kept.take q).eraseIdx e := by
      rw [moved, if_neg h]
      apply ext_getElem?
      intro k
      rw [getElem?_take, getElem?_eraseIdx, getElem?_eraseIdx, getElem?_take, getElem?_take]
      split_ifs <;> first | rfl | omega
    rw [htake]
    exact eraseIdx_sublist _ _

theorem filter_ne_eq_eraseIdx (hkept : kept.Nodup) (hx : kept[e]? = some x) :
    kept.filter (fun y => decide (y ≠ x)) = kept.eraseIdx e := by
  obtain ⟨he, rfl⟩ := List.getElem?_eq_some_iff.1 hx
  rw [← List.Nodup.erase_getElem hkept e he, hkept.erase_eq_filter]
  refine filter_congr fun y _ => ?_
  by_cases hy : y = kept[e] <;> simp [hy]

theorem follows_start : Follows kept 0 [] :=
  ⟨List.Pairwise.nil, fun _ h => absurd h not_mem_nil, fun _ h => absurd h not_mem_nil⟩

theorem Follows.next (hkept : kept.Pairwise (· < ·)) (h : Follows kept q seen) (hx : kept[q]? = some x) :
    Follows kept (q + 1) (seen ++ [x]) := by
  obtain ⟨hq, rfl⟩ := List.getElem?_eq_some_iff.1 hx
  have hdrop := List.drop_eq_getElem_cons hq
  refine ⟨?_, ?_, ?_⟩
  · refine pairwise_append.2 ⟨h.sorted, pairwise_singleton _ _, ?_⟩
    intro y hy z hz
    rw [mem_singleton.1 hz]
    exact h.behind y hy _ (by rw [hdrop]; exact mem_cons_self)
  · intro y hy
    rw [take_add_one, hx, mem_append] at hy
    rcases hy with hy | hy
    · exact mem_append_left _ (h.before y hy)
    · exact mem_append_right _ hy
  · intro y hy z hz
    rcases mem_append.1 hy with hy | hy
    · exact h.behind y hy z (by rw [hdrop]; exact mem_cons_of_mem _ hz)
    · rw [mem_singleton.1 hy]
      have hbehind := hkept.sublist (drop_sublist q kept)
      rw [hdrop] at hbehind
      exact (pairwise_cons.1 hbehind).1 z hz

theorem Follows.erase (h : Follows kept q seen) (e : Nat) : Follows (kept.eraseIdx e) (moved e q) seen := by
  refine ⟨h.sorted, fun x hx => h.before x (take_moved.subset hx), ?_⟩
  intro x hx y hy
  apply h.behind x hx
  by_cases hq : q ≤ e
  · rw [drop_moved hq] at hy
    exact (eraseIdx_sublist _ _).subset hy
  · rwa [drop_moved_of_lt (Nat.not_le.1 hq)] at hy

/-- **At the end nothing is missing.** -/
theorem Follows.complete (h : Follows kept q seen) (hend : kept[q]? = none) (hx : x ∈ kept) : x ∈ seen := by
  apply h.before
  rwa [take_of_length_le (getElem?_eq_none_iff.1 hend)]

theorem leads_start : Leads n (range n) 0 0 := by
  refine ⟨Nat.zero_le n, ?_⟩
  rw [drop_zero, range_eq_range', Nat.sub_zero]

theorem Leads.getElem? (h : Leads n kept q m) : kept[q]? = if m < n then some m else none := by
  have hhead : kept[q]? = (kept.drop q)[0]? := by rw [getElem?_drop, Nat.add_zero]
  rw [hhead, h.behind]
  split_ifs with hm
  · rw [getElem?_range' (by omega), Nat.mul_zero, Nat.add_zero]
  · rw [Nat.sub_eq_zero_of_le (Nat.not_lt.1 hm)]
    rfl

theorem Leads.next (h : Leads n kept q m) (hm : m < n) : Leads n kept (q + 1) (m + 1) := by
  refine ⟨hm, ?_⟩
  obtain ⟨k, hk⟩ : ∃ k, n - m = k + 1 := ⟨n - m - 1, by omega⟩
  rw [← tail_drop, h.behind, hk, range'_succ, tail_cons]
  congr 1
  omega

theorem Leads.erase (h : Leads n kept q m) (he : e < q) : Leads n (kept.eraseIdx e) (moved e q) m :=
  ⟨h.le, by rw [drop_moved_of_lt he, h.behind]⟩

end Slurmpp.Cursor
