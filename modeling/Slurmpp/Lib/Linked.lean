/-
  Lists linked through array indices, with index `0` as both the head and the terminator.

  `follow` is the reader's loop, with the array's length as fuel, and `Linked a j is rs` says that from index `j` the
  loop visits the indices `is` and finds the records `rs` there.  `Linked.insert` and `Linked.set` are the two updates
  that programs make while they stand on a record; both touch the array at the current index and at its end only, so
  `Linked.frame` carries the rest of the list along.
-/
import Mathlib

namespace Slurmpp

open List

variable {ρ : Type*} {next : ρ → ℕ} {a b : List ρ} {j : ℕ} {is : List ℕ} {rs : List ρ}

/-- Collects the records reached from index `j`, at most `fuel` of them. -/
def follow (next : ρ → ℕ) (a : List ρ) : ℕ → ℕ → List ρ
  | 0, _ => []
  | fuel + 1, j =>
    match a[j]? with
    | none => []
    | some r => r :: if next r = 0 then [] else follow next a fuel (next r)

/-- From index `j` the links run through the indices `is`, holding the records `rs`. -/
inductive Linked (next : ρ → ℕ) (a : List ρ) : ℕ → List ℕ → List ρ → Prop
  | last {j : ℕ} {r : ρ} : a[j]? = some r → next r = 0 → Linked next a j [j] [r]
  | link {j : ℕ} {r : ρ} {is : List ℕ} {rs : List ρ} : a[j]? = some r → next r ≠ 0 →
      Linked next a (next r) is rs → Linked next a j (j :: is) (r :: rs)

namespace Linked

section

variable (h : Linked next a j is rs)
include h

theorem lt_length : ∀ i ∈ is, i < a.length := by
  induction h with
  | last hr _ => exact forall_mem_singleton.2 (List.getElem?_eq_some_iff.mp hr).1
  | link hr _ _ ih => exact forall_mem_cons.2 ⟨(List.getElem?_eq_some_iff.mp hr).1, ih⟩

theorem length_le (hnd : is.Nodup) : is.length ≤ a.length := by
  have hsub : is ⊆ range a.length := fun i hi => mem_range.mpr (h.lt_length i hi)
  simpa using (hnd.subperm hsub).length_le

theorem frame (hab : ∀ i ∈ is, b[i]? = a[i]?) : Linked next b j is rs := by
  induction h with
  | last hr h0 => exact .last ((hab _ mem_cons_self).trans hr) h0
  | link hr h0 _ ih =>
    exact .link ((hab _ mem_cons_self).trans hr) h0 (ih (forall_mem_cons.1 hab).2)

/-- What a loop finds at its index: a record, and behind it the end or the rest of the list. -/
theorem head : ∃ r is' rs', is = j :: is' ∧ rs = r :: rs' ∧ a[j]? = some r ∧
    (next r = 0 ∧ rs' = [] ∨ next r ≠ 0 ∧ Linked next a (next r) is' rs') := by
  cases h with
  | last hr h0 => exact ⟨_, _, _, rfl, rfl, hr, .inl ⟨h0, rfl⟩⟩
  | link hr h0 ht => exact ⟨_, _, _, rfl, rfl, hr, .inr ⟨h0, ht⟩⟩

theorem pos : 0 < is.length := by
  obtain ⟨r, is, rs, rfl, -⟩ := h.head
  exact Nat.succ_pos _

theorem follow_eq {fuel : ℕ} (hf : is.length ≤ fuel) : follow next a fuel j = rs := by
  induction fuel generalizing j is rs with
  | zero => exact absurd h.pos (Nat.not_lt.2 hf)
  | succ fuel ih =>
    obtain ⟨r, is, rs, rfl, rfl, hr, ⟨h0, rfl⟩ | ⟨h0, ht⟩⟩ := h.head
    · simp [follow, hr, h0]
    · have htail := ih ht (by simpa using hf)
      simp [follow, hr, h0, htail]

theorem set_of_not_mem {i : ℕ} (r : ρ) (hi : i ∉ is) :
    Linked next (a.set i r) j is rs := by
  refine h.frame fun k hk => getElem?_set_ne ?_
  rintro rfl
  exact hi hk

theorem append (bs : List ρ) : Linked next (a ++ bs) j is rs :=
  h.frame fun k hk => getElem?_append_left (h.lt_length k hk)

end

theorem set {r r' : ρ} (h : Linked next a j (j :: is) (r :: rs)) (hj : j ∉ is)
    (hn : next r' = next r) : Linked next (a.set j r') j (j :: is) (r' :: rs) := by
  have hlt := h.lt_length j mem_cons_self
  have hget : (a.set j r')[j]? = some r' := by simp [hlt]
  cases h with
  | last hr h0 => exact .last hget (hn.trans h0)
  | link hr h0 ht => exact .link hget (hn ▸ h0) (hn ▸ ht.set_of_not_mem r' hj)

theorem insert {r r1 r2 : ρ} (h : Linked next a j (j :: is) (r :: rs)) (hj : j ∉ is)
    (h1 : next r1 = a.length) (h2 : next r2 = next r) :
    Linked next (a.set j r1 ++ [r2]) j (j :: a.length :: is) (r1 :: r2 :: rs) := by
  have hlt := h.lt_length j mem_cons_self
  have hpos : next r1 ≠ 0 := by omega
  have hgetj : (a.set j r1 ++ [r2])[j]? = some r1 := by
    rw [getElem?_append_left (by simpa using hlt)]; simp [hlt]
  have hgeti : (a.set j r1 ++ [r2])[a.length]? = some r2 := by
    rw [getElem?_append_right (by simp)]; simp
  refine .link hgetj hpos ?_
  rw [h1]
  cases h with
  | last hr h0 => exact .last hgeti (h2.trans h0)
  | link hr h0 ht =>
    refine .link hgeti (h2 ▸ h0) ?_
    rw [h2]
    exact (ht.set_of_not_mem r1 hj).append [r2]

end Linked

end Slurmpp
