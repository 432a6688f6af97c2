/-
  Totals over the members of a list.

  `tally p w l` is the total weight of the members of `l` that have the property `p`.  It is what a counter
  should show that goes up when a member comes and down when it goes: `tally_cons` and `tally_erase` say how
  it changes, `toNat_decNonzero` and `toNat_subClamped` that the two ways in which C code guards an unsigned
  counter against falling below zero do no harm as long as the counter shows the total.
-/
import Mathlib

namespace Slurmpp.Tally

open List

variable {α : Type*} {p : α → Bool} {w : α → Nat} {l : List α} {x : α}

def tally (p : α → Bool) (w : α → Nat) (l : List α) : Nat := ((l.filter p).map w).sum

theorem tally_cons : tally p w (x :: l) = (if p x then w x else 0) + tally p w l := by
  unfold tally
  by_cases hx : p x = true <;> simp [hx]

theorem tally_le_sum : tally p w l ≤ (l.map w).sum := by
  induction l with
  | nil => exact le_rfl
  | cons x l ih =>
    rw [tally_cons, map_cons, sum_cons]
    split_ifs <;> omega

theorem tally_perm {l' : List α} (h : l.Perm l') : tally p w l = tally p w l' :=
  ((h.filter p).map w).sum_eq

theorem tally_erase [DecidableEq α] (hx : x ∈ l) :
    tally p w l = (if p x then w x else 0) + tally p w (l.erase x) := by
  rw [tally_perm (perm_cons_erase hx), tally_cons]

theorem countP_eq_sum : l.countP p = (l.map fun a => if p a then 1 else 0).sum := by
  induction l with
  | nil => rfl
  | cons a l ih => rw [List.countP_cons, ih, map_cons, sum_cons, add_comm]

/-- **Counting twice**: by members of one list, or by members of the other. -/
theorem sum_countP_comm {β : Type*} (r : α → β → Bool) (l' : List β) :
    (l.map fun a => l'.countP (r a)).sum = (l'.map fun b => l.countP (r · b)).sum := by
  induction l with
  | nil => simp
  | cons a l ih =>
    rw [map_cons, sum_cons, ih]
    simp only [List.countP_cons, sum_map_add]
    rw [add_comm, countP_eq_sum]

theorem countP_eraseIdx {j : Nat} (h : l[j]? = some x) : l.countP p = (l.eraseIdx j).countP p + (p x).toNat := by
  obtain ⟨hj, rfl⟩ := List.getElem?_eq_some_iff.1 h
  rw [← (List.getElem_cons_eraseIdx_perm hj).countP_eq, List.countP_cons]
  cases p l[j] <;> rfl

theorem countP_set {j : Nat} (h : l[j]? = some x) (y : α) :
    (l.set j y).countP p = (l.eraseIdx j).countP p + (p y).toNat := by
  obtain ⟨hj, -⟩ := List.getElem?_eq_some_iff.1 h
  rw [countP_eraseIdx (List.getElem?_set_self hj), List.eraseIdx_set_eq]

theorem index_unique (h : l.countP p ≤ 1) {k m : Nat} {a c : α} (hk : l[k]? = some a) (hm : l[m]? = some c)
    (ha : p a = true) (hc : p c = true) : k = m := by
  induction l generalizing k m with
  | nil => simp at hk
  | cons x l ih =>
    -- a member with the property behind one that has it would be a second one
    have hno : ∀ {j : Nat} {y : α}, p x = true → l[j]? = some y → p y = true → False := fun hx hj hy => by
      rw [countP_cons_of_pos hx] at h
      have hpos := countP_pos_iff.2 ⟨_, mem_of_getElem? hj, hy⟩
      omega
    have htail : l.countP p ≤ 1 := by
      rw [List.countP_cons] at h
      omega
    cases k with
    | zero =>
      obtain rfl : x = a := by simpa using hk
      cases m with
      | zero => rfl
      | succ m => exact (hno ha (by simpa using hm) hc).elim
    | succ k =>
      cases m with
      | zero =>
        obtain rfl : x = c := by simpa using hm
        exact (hno hc (by simpa using hk) ha).elim
      | succ m => exact congrArg Nat.succ (ih htail (by simpa using hk) (by simpa using hm))

variable {n m : Nat}

/-- `if (c) c--;` -/
def decNonzero (c : BitVec n) : BitVec n := if c = 0 then c else c - 1

/-- `c -= d; if ((signed) c < 0) c = 0;` -/
def subClamped (c d : BitVec n) : BitVec n := if (c - d).msb then 0 else c - d

variable {c d : BitVec n}

theorem toNat_sub_of_eq_add (h : c.toNat = m + d.toNat) : (c - d).toNat = m := by
  rw [BitVec.toNat_sub, h, show 2 ^ n - d.toNat + (m + d.toNat) = m + 2 ^ n by omega, Nat.add_mod_right]
  exact Nat.mod_eq_of_lt (by omega)

theorem toNat_decNonzero_sub (hn : 0 < n) : (decNonzero c).toNat = c.toNat - 1 := by
  by_cases hc : c = 0
  · rw [decNonzero, if_pos hc, hc]
    simp
  · have hne : c.toNat ≠ 0 := fun h0 => hc (BitVec.eq_of_toNat_eq (by simpa using h0))
    have hone : (1 : BitVec n).toNat = 1 := by simp [Nat.mod_eq_of_lt (Nat.one_lt_two_pow hn.ne')]
    rw [decNonzero, if_neg hc]
    exact toNat_sub_of_eq_add (by rw [hone]; omega)

theorem toNat_decNonzero (hn : 0 < n) (h : c.toNat = m + 1) : (decNonzero c).toNat = m := by
  rw [toNat_decNonzero_sub hn, h, Nat.add_sub_cancel]

theorem toNat_subClamped (h : c.toNat = m + d.toNat) (hm : m < 2 ^ (n - 1)) : (subClamped c d).toNat = m := by
  have hsub := toNat_sub_of_eq_add h
  have hmsb : (c - d).msb = false := by
    rw [BitVec.msb_eq_decide, hsub, decide_eq_false]
    omega
  rw [subClamped, hmsb]
  exact hsub

end Slurmpp.Tally
