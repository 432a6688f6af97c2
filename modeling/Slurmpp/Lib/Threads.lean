/-
  Threads that share counters and wait for each other.

  Two arguments about any family of threads, with nothing of a particular program in them:

  * a counter that every thread moves only by what changes in ITSELF is a sum over the threads, and
    a move of one of them changes one term (`sum_update`, `sum_map_set`);
  * threads that wait for others of higher rank cannot wait in a ring (`exists_unblocked`): in every
    nonempty set one of them waits for nobody in the set.
-/
import Mathlib

namespace Slurmpp

variable {τ : Type*}

theorem sum_update {α M : Type*} [AddCommMonoid M] [Fintype τ] [DecidableEq τ] (g : τ → α → M)
    (f : τ → α) (t : τ) (a : α) : ∑ x, g x (Function.update f t a x) + g t (f t) = ∑ x, g x (f x) + g t a := by
  have hsum : ∑ x, g x (Function.update f t a x) =
      ∑ x, Function.update (fun x => g x (f x)) t (g t a) x :=
    Finset.sum_congr rfl fun x _ => Function.apply_update g f t a x
  rw [hsum, Finset.sum_update_of_mem (Finset.mem_univ t),
    Finset.sum_eq_add_sum_sdiff_singleton_of_mem (Finset.mem_univ t) fun x => g x (f x)]
  abel

theorem sum_map_set {α M : Type*} [AddCommMonoid M] (g : α → M) {l : List α} {i : Nat} {a b : α}
    (h : l[i]? = some a) : ((l.set i b).map g).sum + g a = (l.map g).sum + g b := by
  induction l generalizing i with
  | nil => cases h
  | cons x l ih =>
    cases i with
    | zero =>
      obtain rfl : x = a := by simpa using h
      simp only [List.set_cons_zero, List.map_cons, List.sum_cons]
      abel
    | succ i =>
      have hrest := ih (by simpa using h)
      simp only [List.set_cons_succ, List.map_cons, List.sum_cons]
      rw [add_assoc, hrest, add_assoc]

/-- **No ring of waiting threads**: who has the highest rank in a set waits for nobody in it. -/
theorem exists_unblocked {R : τ → τ → Prop} {r : τ → Nat} (hrank : ∀ t u, R t u → r t < r u)
    {S : Finset τ} (hS : S.Nonempty) : ∃ t ∈ S, ∀ u ∈ S, ¬R t u := by
  obtain ⟨t, ht, hmax⟩ := S.exists_max_image r hS
  refine ⟨t, ht, fun u hu hR => ?_⟩
  have h1 := hrank t u hR
  have h2 := hmax u hu
  omega

end Slurmpp
