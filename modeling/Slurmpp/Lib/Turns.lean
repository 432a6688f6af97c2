/-
  Taking turns: a queue whose served members go to the back, both groups in their old order (`setBack`); then a NEW set
  of members is served, of which nothing is known but that it has the first of the queue in it.  That alone is enough:
  in as many rounds as there are members, everyone is served (`served`).

  The rank of a member is the number of those before it.  A member that is not served is never overtaken, and the first
  of the queue goes behind it: the rank falls in every round (`ahead_setBack_lt`).
-/
import Mathlib

namespace Slurmpp.Turns

open List

variable {α : Type*}

/-- The served members go behind the others. -/
def setBack (p : α → Bool) (l : List α) : List α := l.filter (fun x => !p x) ++ l.filter p

variable {p : α → Bool} {l m : List α} {x y : α}

theorem setBack_perm : (setBack p l).Perm l :=
  perm_append_comm.trans (filter_append_perm p l)

theorem length_setBack : (setBack p l).length = l.length := setBack_perm.length_eq

theorem mem_setBack : x ∈ setBack p l ↔ x ∈ l := setBack_perm.mem_iff

theorem setBack_of_all (h : ∀ x ∈ l, p x = true) : setBack p l = l := by
  rw [setBack, filter_eq_self.2 h, filter_eq_nil_iff.2]
  · rfl
  · intro x hx
    simp [h x hx]

theorem setBack_of_none (h : ∀ x ∈ l, p x = false) : setBack p l = l := by
  have hall : l.filter (fun x => !p x) = l := filter_eq_self.2 fun x hx => by rw [h x hx]; rfl
  have hnone : l.filter p = [] := filter_eq_nil_iff.2 fun x hx => by rw [h x hx]; simp
  rw [setBack, hall, hnone, append_nil]

/-- **One by one**: the served ones at the front, `l`, are set back first, and count as not served
    (`q`) for what is done to the rest. -/
theorem setBack_front {q : α → Bool} (hl : ∀ y ∈ l, p y = true) (hx : p x = false)
    (hm : ∀ y ∈ m, q y = p y) (hl' : ∀ y ∈ l, q y = false) : setBack p (l ++ x :: m) = x :: setBack q (m ++ l) := by
  have hm1 : m.filter (fun y => !q y) = m.filter fun y => !p y :=
    filter_congr fun y hy => by rw [hm y hy]
  have hm2 : m.filter q = m.filter p := filter_congr hm
  have hl1 : l.filter (fun y => !q y) = l := filter_eq_self.2 fun y hy => by rw [hl' y hy]; rfl
  have hl2 : l.filter q = [] := filter_eq_nil_iff.2 fun y hy => by rw [hl' y hy]; simp
  have hl3 : l.filter (fun y => !p y) = [] :=
    filter_eq_nil_iff.2 fun y hy => by rw [hl y hy]; simp
  have hl4 : l.filter p = l := filter_eq_self.2 hl
  have hx1 : (x :: m).filter (fun y => !p y) = x :: m.filter fun y => !p y :=
    filter_cons_of_pos (by rw [hx]; rfl)
  have hx2 : (x :: m).filter p = m.filter p := filter_cons_of_neg (by rw [hx]; simp)
  simp only [setBack, filter_append, hm1, hm2, hl1, hl2, hl3, hl4, hx1, hx2,
    append_nil, nil_append, cons_append, append_assoc]

variable [DecidableEq α]

/-- Those before the first `x`. -/
def ahead (x : α) (l : List α) : List α := l.takeWhile fun y => y != x

theorem ahead_cons (hy : y ≠ x) : ahead x (y :: l) = y :: ahead x l := by
  simp [ahead, hy]

theorem ahead_length_lt (hx : x ∈ l) : (ahead x l).length < l.length := by
  have hle : ahead x l <+: l := takeWhile_prefix _
  refine lt_of_le_of_ne hle.length_le fun hlen => ?_
  have hall := takeWhile_eq_self_iff.1 (hle.eq_of_length hlen) x hx
  simp at hall

theorem ahead_append (hx : x ∈ l) : ahead x (l ++ m) = ahead x l :=
  takeWhile_append.trans (if_neg (ahead_length_lt hx).ne)

theorem ahead_filter (hp : p x = true) (hx : x ∈ l) : ahead x (l.filter p) = (ahead x l).filter p := by
  induction l with
  | nil => cases hx
  | cons y l ih =>
    by_cases hy : y = x
    · subst hy
      simp [ahead, hp]
    · have hx' : x ∈ l := (mem_cons.1 hx).resolve_left (Ne.symm hy)
      rw [ahead_cons hy]
      by_cases hq : p y = true
      · rw [filter_cons_of_pos hq, filter_cons_of_pos hq, ← ih hx', ahead_cons hy]
      · rw [filter_cons_of_neg hq, filter_cons_of_neg hq, ih hx']

theorem ahead_setBack (hp : p x = false) (hx : x ∈ l) : ahead x (setBack p l) = (ahead x l).filter fun y => !p y := by
  rw [setBack, ahead_append (mem_filter.2 ⟨hx, by simp [hp]⟩)]
  exact ahead_filter (by simp [hp]) hx

/-- **The rank falls** when the first of the queue is served and `x` is not. -/
theorem ahead_setBack_lt (hp : p x = false) (hx : x ∈ y :: l) (hy : p y = true) :
    (ahead x (setBack p (y :: l))).length < (ahead x (y :: l)).length := by
  have hne : y ≠ x := by
    rintro rfl
    rw [hp] at hy
    cases hy
  rw [ahead_setBack hp hx, ahead_cons hne, filter_cons_of_neg (by simp [hy]), length_cons]
  exact Nat.lt_succ_of_le (length_filter_le _ _)

/-- **Everyone is served** in a window of as many rounds as there are members. -/
theorem served {q : ℕ → List α} {s : ℕ → α → Bool} (hqueue : ∀ k, q (k + 1) = setBack (s k) (q k))
    (hfirst : ∀ k y l, q (k + 1) = y :: l → s (k + 1) y = true) (hx : x ∈ q 0) :
    ∃ k, 0 < k ∧ k ≤ (q 0).length ∧ s k x = true := by
  by_contra hnone
  push Not at hnone
  have hmem : ∀ k, x ∈ q k := by
    intro k
    induction k with
    | zero => exact hx
    | succ k ih => rw [hqueue k, mem_setBack]; exact ih
  have hlength : ∀ k, (q k).length = (q 0).length := by
    intro k
    induction k with
    | zero => rfl
    | succ k ih => rw [hqueue k, length_setBack, ih]
  -- as long as `x` is not served its rank is at most the number of rounds left
  have hrank : ∀ k, k < (q 0).length → (ahead x (q (k + 1))).length + (k + 1) ≤ (q 0).length := by
    intro k
    induction k with
    | zero =>
      intro _
      have hlt := ahead_length_lt (hmem 1)
      have hlen := hlength 1
      show (ahead x (q 1)).length + 1 ≤ _
      omega
    | succ k ih =>
      intro hk
      have hnot : s (k + 1) x = false := by simpa using hnone (k + 1) (by omega) (by omega)
      obtain ⟨y, l, hfront⟩ := exists_cons_of_ne_nil (ne_nil_of_mem (hmem (k + 1)))
      have hlt := ahead_setBack_lt hnot (hfront ▸ hmem (k + 1)) (hfirst k y l hfront)
      rw [← hfront, ← hqueue] at hlt
      have := ih (by omega)
      omega
  -- so in the last round `x` is first
  have hpos : 0 < (q 0).length := length_pos_of_mem hx
  obtain ⟨n, hn⟩ := Nat.exists_eq_succ_of_ne_zero hpos.ne'
  have hlast := hrank n (by omega)
  have hzero : (ahead x (q (n + 1))).length = 0 := by omega
  obtain ⟨y, l, hfront⟩ := exists_cons_of_ne_nil (ne_nil_of_mem (hmem (n + 1)))
  have hy : y = x := by
    by_contra hne
    rw [hfront, ahead_cons hne] at hzero
    cases hzero
  have := hfirst n y l hfront
  rw [hy] at this
  exact hnone (n + 1) (by omega) (by omega) this

end Slurmpp.Turns
