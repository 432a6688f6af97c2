/-
  Circles in a directed graph, and edges added at one vertex.

  A graph is a relation.  If it has no circle, then new edges from one vertex `j` close one exactly
  when `j` can be reached from where they lead (`circle_iff`), and a search for `j` from there, along
  the OLD edges, decides it: on a path with several new edges only what comes after the last of them,
  or before the first, matters.
-/
import Mathlib

namespace Slurmpp

open Relation

variable {V : Type*} {R R' : V → V → Prop}

/-- No vertex can be reached from itself. -/
def Acyclic (R : V → V → Prop) : Prop := ∀ x, ¬TransGen R x x

theorem Acyclic.mono (h : Acyclic R) (hR : ∀ x y, R' x y → R x y) : Acyclic R' := fun x hx =>
  h x (TransGen.mono hR _ _ hx)

theorem acyclic_of_rank (r : V → Nat) (h : ∀ x y, R x y → r x < r y) : Acyclic R := by
  have hlt : ∀ x y, TransGen R x y → r x < r y := by
    intro x y hxy
    induction hxy with
    | single hR => exact h _ _ hR
    | tail _ hR ih => exact ih.trans (h _ _ hR)
  exact fun x hx => absurd (hlt x x hx) (Nat.lt_irrefl _)

theorem Acyclic.wellFounded [Finite V] (h : Acyclic R) : WellFounded (flip R) := by
  have hirrefl : Std.Irrefl (flip (TransGen R)) := ⟨h⟩
  have htrans : IsTrans V (flip (TransGen R)) := ⟨fun _ _ _ hba hcb => hcb.trans hba⟩
  have hsub : Subrelation (flip R) (flip (TransGen R)) := fun hR => .single hR
  exact hsub.wf (Finite.wellFounded_of_trans_of_irrefl _)

/-- A value at each vertex that depends on the values its edges lead to. -/
theorem Acyclic.exists_eq [Finite V] {β : Type*} [Inhabited β] (h : Acyclic R) {F : V → (V → β) → β}
    (hF : ∀ x f g, (∀ y, R x y → f y = g y) → F x f = F x g) : ∃ f, ∀ x, f x = F x f := by
  classical
  refine ⟨h.wellFounded.fix fun x below => F x fun y => if hxy : R x y then below y hxy else default, fun x => ?_⟩
  rw [WellFounded.fix_eq]
  exact hF x _ _ fun y hxy => dif_pos hxy

/-- `R` with edges from `j` to the vertices in `N`. -/
def AddEdges (R : V → V → Prop) (j : V) (N : V → Prop) (x y : V) : Prop := R x y ∨ x = j ∧ N y

variable {j : V} {N : V → Prop}

theorem path_addEdges {x y : V} (h : ReflTransGen (AddEdges R j N) x y) :
    ReflTransGen R x y ∨ ReflTransGen R x j ∧ ∃ n, N n ∧ ReflTransGen R n y := by
  induction h with
  | refl => exact .inl .refl
  | tail _ hstep ih =>
    rcases ih with hold | ⟨hj, n, hn, hrest⟩
    · rcases hstep with hR | ⟨rfl, hN⟩
      · exact .inl (hold.tail hR)
      · exact .inr ⟨hold, _, hN, .refl⟩
    · rcases hstep with hR | ⟨rfl, hN⟩
      · exact .inr ⟨hj, n, hn, hrest.tail hR⟩
      · exact .inr ⟨hj, _, hN, .refl⟩

/-- **When new edges close a circle.** -/
theorem circle_iff (h : Acyclic R) : (∃ x, TransGen (AddEdges R j N) x x) ↔ ∃ n, N n ∧ ReflTransGen R n j := by
  constructor
  · rintro ⟨x, hx⟩
    obtain ⟨y, hxy, hyx⟩ := TransGen.tail'_iff.1 hx
    rcases path_addEdges hxy with hold | ⟨hj, n, hn, hrest⟩
    · rcases hyx with hR | ⟨rfl, hN⟩
      · exact absurd (TransGen.tail' hold hR) (h x)
      · exact ⟨x, hN, hold⟩
    · rcases hyx with hR | ⟨rfl, hN⟩
      · exact ⟨n, hn, (hrest.tail hR).trans hj⟩
      · exact ⟨x, hN, hj⟩
  · rintro ⟨n, hn, hpath⟩
    exact ⟨j, TransGen.head' (.inr ⟨rfl, hn⟩) (ReflTransGen.mono (fun _ _ hR => .inl hR) _ _ hpath)⟩

end Slurmpp
