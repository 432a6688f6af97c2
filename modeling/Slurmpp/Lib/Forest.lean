/-
  Forests by parent pointers.

  Each node has at most one parent, and a rank that falls on the way up.  `path a` is the list that a loop
  `while (a) { ...; a = a->parent; }` runs through: `a` and the nodes above it (`mem_path_iff`), each of them
  once (`path_nodup`).  So the loop that changes the entry of each node it visits changes exactly the entries
  of the path, and each of them once (`foldl_update_path`).
-/
import Mathlib

namespace Slurmpp

structure Forest (α : Type*) where
  parent : α → Option α
  rank : α → Nat
  rank_lt : ∀ {a b}, parent a = some b → rank b < rank a

namespace Forest

variable {α β : Type*} (F : Forest α)

/-- At most `n + 1` nodes on the way up from `a`. -/
def climb : Nat → α → List α
  | 0, a => [a]
  | n + 1, a => a :: (F.parent a).elim [] (climb n)

def path (a : α) : List α := F.climb (F.rank a) a

variable {F} {a b : α}

theorem climb_eq_climb {n m : Nat} (hn : F.rank a ≤ n) (hm : F.rank a ≤ m) : F.climb n a = F.climb m a := by
  induction n generalizing m a with
  | zero =>
    cases m with
    | zero => rfl
    | succ m =>
      cases hp : F.parent a with
      | none => simp [climb, hp]
      | some b => have := F.rank_lt hp; omega
  | succ n ih =>
    cases hp : F.parent a with
    | none => cases m <;> simp [climb, hp]
    | some b =>
      have hlt := F.rank_lt hp
      cases m with
      | zero => omega
      | succ m =>
        have := ih (a := b) (m := m) (by omega) (by omega)
        simp [climb, hp, this]

theorem path_of_none (h : F.parent a = none) : F.path a = [a] := by
  rw [path]
  cases F.rank a <;> simp [climb, h]

theorem path_of_some (h : F.parent a = some b) : F.path a = a :: F.path b := by
  have hlt := F.rank_lt h
  obtain ⟨n, hn⟩ : ∃ n, F.rank a = n + 1 := ⟨F.rank a - 1, by omega⟩
  rw [path, hn, climb, h, Option.elim_some, path, climb_eq_climb (by omega) le_rfl]

theorem path_induction {P : α → Prop} (root : ∀ a, F.parent a = none → P a)
    (up : ∀ a b, F.parent a = some b → P b → P a) (a : α) : P a := by
  induction hr : F.rank a using Nat.strong_induction_on generalizing a with
  | _ n ih =>
    cases hp : F.parent a with
    | none => exact root a hp
    | some b => exact up a b hp (ih _ (hr ▸ F.rank_lt hp) b rfl)

/-- **The path is what is above.** -/
theorem mem_path_iff : b ∈ F.path a ↔ Relation.ReflTransGen (fun x y => F.parent x = some y) a b := by
  induction a using F.path_induction with
  | root a h =>
    rw [path_of_none h, List.mem_singleton]
    constructor
    · rintro rfl
      exact .refl
    · intro hab
      rcases hab.cases_head with rfl | ⟨c, hc, -⟩
      · rfl
      · rw [h] at hc
        cases hc
  | up a c h ih =>
    rw [path_of_some h, List.mem_cons, ih]
    constructor
    · rintro (rfl | hcb)
      · exact .refl
      · exact .head h hcb
    · intro hab
      rcases hab.cases_head with rfl | ⟨d, hd, hdb⟩
      · exact .inl rfl
      · rw [h, Option.some.injEq] at hd
        exact .inr (hd ▸ hdb)

theorem rank_le_of_mem_path (h : b ∈ F.path a) : F.rank b ≤ F.rank a := by
  rw [mem_path_iff] at h
  induction h with
  | refl => exact le_rfl
  | tail _ hbc ih => exact (F.rank_lt hbc).le.trans ih

theorem path_nodup : (F.path a).Nodup := by
  induction a using F.path_induction with
  | root a h => simp [path_of_none h]
  | up a b h ih =>
    rw [path_of_some h, List.nodup_cons]
    refine ⟨fun hmem => ?_, ih⟩
    have := rank_le_of_mem_path hmem
    have := F.rank_lt h
    omega

theorem foldl_update_of_nodup [DecidableEq α] {l : List α} (hl : l.Nodup) (f : β → β) (m : α → β) :
    l.foldl (fun m x => Function.update m x (f (m x))) m = fun x => if x ∈ l then f (m x) else m x := by
  induction l generalizing m with
  | nil => simp
  | cons a l ih =>
    rw [List.nodup_cons] at hl
    rw [List.foldl_cons, ih hl.2]
    funext x
    by_cases hx : x = a
    · subst hx
      simp [hl.1]
    · simp [hx]

theorem foldl_update_path [DecidableEq α] (f : β → β) (m : α → β) :
    (F.path a).foldl (fun m x => Function.update m x (f (m x))) m = fun x => if x ∈ F.path a then f (m x) else m x :=
  foldl_update_of_nodup path_nodup f m

end Forest

end Slurmpp
