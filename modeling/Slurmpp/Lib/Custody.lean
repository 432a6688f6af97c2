/-
  Custody of things: what a shared allocator is FOR.  Every thing is unknown to the allocator (`out`), in its pool
  (`free`), or with one holder (`held i`).  A custody state is a FUNCTION from things to places, so that no thing can
  be in two of them.  The allocator's moves are

  * `arrive X`   — unknown things come into the pool;
  * `take i X`   — free things go to holder `i`;
  * `give i X`   — things of holder `i` go back into the pool.

  A program keeps a pool and one ledger per holder, and these SHOW a custody state (`Tracks`).  `Tracks.take`,
  `Tracks.give` and `Tracks.arrive` say when an update is a custody move; `Tracks.exclusive` and `Tracks.not_free` are
  what the program gets for following them.
-/
import Slurmpp.Lib.Machine

namespace Slurmpp.Custody

variable {ρ ι : Type*}

inductive Place (ι : Type*)
  | out
  | free
  | held (i : ι)
deriving DecidableEq

inductive Move (ρ ι : Type*)
  | arrive (X : List ρ)
  | take (i : ι) (X : List ρ)
  | give (i : ι) (X : List ρ)

section Moves

variable [DecidableEq ρ]

def put (A : ρ → Place ι) (X : List ρ) (w : Place ι) : ρ → Place ι :=
  fun x => if x ∈ X then w else A x

variable {A B : ρ → Place ι} {w v : Place ι} {X : List ρ}

theorem put_of_mem {x : ρ} (h : x ∈ X) : put A X w x = w := if_pos h

theorem put_of_not_mem {x : ρ} (h : x ∉ X) : put A X w x = A x := if_neg h

variable [DecidableEq ι]

def carry (A : ρ → Place ι) (X : List ρ) (v w : Place ι) : Option (ρ → Place ι) :=
  if ∀ x ∈ X, A x = v then some (put A X w) else none

def custody : Machine (ρ → Place ι) (Move ρ ι) where
  step A
    | .arrive X => carry A X .out .free
    | .take i X => carry A X .free (.held i)
    | .give i X => carry A X (.held i) .free

theorem carry_eq_some (h : carry A X v w = some B) : (∀ x ∈ X, A x = v) ∧ B = put A X w := by
  rw [carry] at h
  split_ifs at h with hX
  exact ⟨hX, (Option.some.inj h).symm⟩

theorem carry_eq_out_iff (hv : v ≠ .out)
    (hw : w ≠ .out) (h : carry A X v w = some B) (x : ρ) : B x = .out ↔ A x = .out := by
  obtain ⟨hX, rfl⟩ := carry_eq_some h
  by_cases hx : x ∈ X
  · rw [put_of_mem hx, hX x hx]
    exact iff_of_false hw hv
  · rw [put_of_not_mem hx]

/-- The moves that bring nothing new. -/
def Move.Inner : Move ρ ι → Prop
  | .arrive _ => False
  | _ => True

/-- **Nothing is lost and nothing appears** in a run without arrivals. -/
theorem known_iff {A0 : ρ → Place ι} (h : custody.Reach (fun _ m => m.Inner) A0 A) (x : ρ) :
    A x = .out ↔ A0 x = .out := by
  refine h.invariant (I := fun B => B x = .out ↔ A0 x = .out) Iff.rfl ?_
  intro B m B' ih hm hs
  cases m with
  | arrive X => exact hm.elim
  | take | give => exact (carry_eq_out_iff (by simp) (by simp) hs x).trans ih

end Moves

/-! ## Pools and ledgers that show a custody state -/

structure Tracks (F : Set ρ) (H : ι → Set ρ) (A : ρ → Place ι) : Prop where
  free : ∀ x, A x = .free ↔ x ∈ F
  held : ∀ i x, A x = .held i ↔ x ∈ H i

namespace Tracks

variable {F G : Set ρ} {H J : ι → Set ρ} {A : ρ → Place ι} {i : ι} {X : List ρ} {x : ρ}

section

variable (h : Tracks F H A)
include h

theorem exclusive {i j : ι} (hi : x ∈ H i) (hj : x ∈ H j) : i = j :=
  Place.held.inj (((h.held i x).2 hi).symm.trans ((h.held j x).2 hj))

theorem not_free {i : ι} (hi : x ∈ H i) : x ∉ F := by
  intro hx
  have := ((h.held i x).2 hi).symm.trans ((h.free x).2 hx)
  cases this

theorem known_of_free (hx : x ∈ F) : A x ≠ .out := by
  rw [(h.free x).2 hx]
  simp

theorem known_of_held (hx : x ∈ H i) : A x ≠ .out := by
  rw [(h.held i x).2 hx]
  simp

theorem free_or_held (hx : A x ≠ .out) : x ∈ F ∨ ∃ i, x ∈ H i := by
  cases hA : A x with
  | out => exact absurd hA hx
  | free => exact .inl ((h.free x).1 hA)
  | held i => exact .inr ⟨i, (h.held i x).1 hA⟩

theorem out_of (hF : x ∉ F) (hH : ∀ i, x ∉ H i) : A x = .out := by
  by_contra hne
  rcases h.free_or_held hne with hf | ⟨i, hi⟩
  · exact hF hf
  · exact hH i hi

theorem congr (hF : ∀ x, x ∈ G ↔ x ∈ F) (hH : ∀ j x, x ∈ J j ↔ x ∈ H j) : Tracks G J A :=
  ⟨fun x => (h.free x).trans (hF x).symm, fun j x => (h.held j x).trans (hH j x).symm⟩

end

variable [DecidableEq ρ]

theorem free_put (h : Tracks F H A) (hF : ∀ x, x ∈ G ↔ x ∈ F ∨ x ∈ X) (x : ρ) : put A X .free x = .free ↔ x ∈ G := by
  by_cases hx : x ∈ X
  · simp [put_of_mem hx, hF, hx]
  · simp [put_of_not_mem hx, hF, hx, h.free]

variable [DecidableEq ι]

theorem take (h : Tracks F H A) (hX : ∀ x ∈ X, x ∈ F) (hF : ∀ x, x ∈ G ↔ x ∈ F ∧ x ∉ X)
    (hH : ∀ j x, x ∈ J j ↔ x ∈ H j ∨ j = i ∧ x ∈ X) :
    custody.step A (.take i X) = some (put A X (.held i)) ∧ Tracks G J (put A X (.held i)) := by
  refine ⟨if_pos fun x hx => (h.free x).2 (hX x hx), ?_, ?_⟩
  · intro x
    by_cases hx : x ∈ X
    · simp [put_of_mem hx, hF, hx]
    · simp [put_of_not_mem hx, hF, hx, h.free]
  · intro j x
    by_cases hx : x ∈ X
    · -- a thing that was free is in no ledger, so it is in the ledger of `j` only if `j = i`
      have hno : x ∉ H j := fun hj => h.not_free hj (hX x hx)
      rw [put_of_mem hx, hH]
      simp [hno, hx, eq_comm]
    · rw [put_of_not_mem hx, hH]
      simp [hx, h.held]

theorem give (h : Tracks F H A) (hX : ∀ x ∈ X, x ∈ H i) (hF : ∀ x, x ∈ G ↔ x ∈ F ∨ x ∈ X)
    (hH : ∀ j x, x ∈ J j ↔ x ∈ H j ∧ ¬(j = i ∧ x ∈ X)) :
    custody.step A (.give i X) = some (put A X .free) ∧ Tracks G J (put A X .free) := by
  refine ⟨if_pos fun x hx => (h.held i x).2 (hX x hx), h.free_put hF, fun j x => ?_⟩
  by_cases hx : x ∈ X
  · rw [put_of_mem hx, hH]
    refine iff_of_false (by simp) ?_
    rintro ⟨hj, hne⟩
    exact hne ⟨h.exclusive hj (hX x hx), hx⟩
  · rw [put_of_not_mem hx, hH]
    simp [hx, h.held]

theorem arrive (h : Tracks F H A) (hX : ∀ x ∈ X, x ∉ F ∧ ∀ j, x ∉ H j)
    (hF : ∀ x, x ∈ G ↔ x ∈ F ∨ x ∈ X) (hH : ∀ j x, x ∈ J j ↔ x ∈ H j) :
    custody.step A (.arrive X) = some (put A X .free) ∧ Tracks G J (put A X .free) := by
  refine ⟨if_pos fun x hx => h.out_of (hX x hx).1 (hX x hx).2, h.free_put hF, fun j x => ?_⟩
  by_cases hx : x ∈ X
  · rw [put_of_mem hx, hH]
    exact iff_of_false (by simp) ((hX x hx).2 j)
  · rw [put_of_not_mem hx, hH, h.held]

end Tracks

end Slurmpp.Custody
