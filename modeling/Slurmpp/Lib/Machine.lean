/-
  Labelled machines: a step FUNCTION whose label carries every choice the environment makes.

  The state of a `Machine σ α` holds everything shared and everything private, the label says who moves and what the
  environment chooses, and `step s a = none` means that this move is not possible in `s`.  A run is a list of labels
  and can be EVALUATED; a statement about all lists of labels is one about every interleaving.

  `Reach P s₀ s` is reachability through steps that each meet a side condition `P` where they are taken:

  1. `Reach.invariant`  — what holds at the start and is kept by each step holds everywhere;
  2. `Reach.mono`       — a weaker side condition reaches at least as much;
  3. `Reach.exists_turn` — what did not hold at the start and holds now was made true by a step, and has held since;
  4. `run_of_rank`      — a move that lowers a rank until a goal is met, repeated, meets it;
     `reach_of_rank`    — the same where each state has a move of its own.
-/
import Mathlib

namespace Slurmpp

instance neZero_two : NeZero 2 := ⟨two_ne_zero⟩

/-- A labelled machine: `step s a = some t` when the move `a` takes `s` to `t`. -/
structure Machine (σ α : Type*) where
  step : σ → α → Option σ

namespace Machine

variable {σ α : Type*} (M : Machine σ α)

/-- Runs a list of moves, oldest first; `none` as soon as one of them is not possible. -/
def run (s : σ) : List α → Option σ
  | [] => some s
  | a :: as => (M.step s a).bind fun t => run t as

/-- States reachable from `s₀` by steps that each meet `P` where they are taken. -/
inductive Reach (P : σ → α → Prop) (s₀ : σ) : σ → Prop
  | start : Reach P s₀ s₀
  | step {s t : σ} {a : α} : Reach P s₀ s → P s a → M.step s a = some t → Reach P s₀ t

variable {M} {P Q : σ → α → Prop} {s₀ s t : σ} {I D : σ → Prop}

/-- **The invariant rule.** -/
theorem Reach.invariant (h0 : I s₀)
    (hstep : ∀ s a t, I s → P s a → M.step s a = some t → I t) (h : M.Reach P s₀ s) : I s := by
  induction h with
  | start => exact h0
  | step _ hp hs ih => exact hstep _ _ _ ih hp hs

theorem Reach.mono (hPQ : ∀ s a, P s a → Q s a) (h : M.Reach P s₀ s) : M.Reach Q s₀ s := by
  induction h with
  | start => exact .start
  | step _ hp hs ih => exact .step ih (hPQ _ _ hp) hs

theorem Reach.trans (h : M.Reach P s₀ s) (h' : M.Reach P s t) : M.Reach P s₀ t := by
  induction h' with
  | start => exact h
  | step _ hp hs ih => exact .step ih hp hs

/-- **The turning point.**  If `B` does not hold at the start and holds now, then a step has made it
    true, and it has held ever since. -/
theorem Reach.exists_turn {B : σ → Prop} (h : M.Reach P s₀ s) (h0 : ¬B s₀) (hs : B s) :
    ∃ t a u, M.Reach P s₀ t ∧ P t a ∧ M.step t a = some u ∧ ¬B t ∧ B u ∧ M.Reach (fun x a => P x a ∧ B x) u s := by
  induction h with
  | start => exact absurd hs h0
  | @step s t a hr hp hstep ih =>
    by_cases hB : B s
    · obtain ⟨t', a', u, hr', hp', hstep', hno, hu, hsince⟩ := ih hB
      exact ⟨t', a', u, hr', hp', hstep', hno, hu, .step hsince ⟨hp, hB⟩ hstep⟩
    · exact ⟨s, a, t, hr, hp, hstep, hB, hs, .start⟩

/-- **The progress rule.**  A move `a` that keeps `I` and lowers the rank `f` as long as the goal `D` is
    not met reaches the goal when it is repeated. -/
theorem run_of_rank {f : σ → Nat} {a : α}
    (hstep : ∀ s, I s → ¬D s → ∃ t, M.step s a = some t ∧ I t ∧ f t < f s) (hs : I s) :
    ∃ n t, M.run s (List.replicate n a) = some t ∧ I t ∧ D t := by
  induction hn : f s using Nat.strong_induction_on generalizing s with
  | _ k ih =>
    by_cases hD : D s
    · exact ⟨0, s, rfl, hs, hD⟩
    · obtain ⟨t, ht, hI, hlt⟩ := hstep s hs hD
      obtain ⟨n, u, hu, hI', hD'⟩ := ih (f t) (hn ▸ hlt) hI rfl
      refine ⟨n + 1, u, ?_, hI', hD'⟩
      rw [List.replicate_succ, run, ht]
      exact hu

/-- **The progress rule** for a machine with a move of its own in each state. -/
theorem reach_of_rank {f : σ → Nat}
    (hstep : ∀ s, I s → ¬D s → ∃ a t, P s a ∧ M.step s a = some t ∧ I t ∧ f t < f s) (hs : I s) :
    ∃ t, M.Reach P s t ∧ I t ∧ D t := by
  induction hn : f s using Nat.strong_induction_on generalizing s with
  | _ k ih =>
    by_cases hD : D s
    · exact ⟨s, .start, hs, hD⟩
    · obtain ⟨a, t, hp, ht, hI, hlt⟩ := hstep s hs hD
      obtain ⟨u, hu, hI', hD'⟩ := ih (f t) (hn ▸ hlt) hI rfl
      exact ⟨u, (Reach.start.step hp ht).trans hu, hI', hD'⟩

/-- Whether every move of a list meets the (decidable) side condition where it is taken. -/
def allMeet (M : Machine σ α) (P : σ → α → Prop) [∀ s a, Decidable (P s a)] (s : σ) :
    List α → Bool
  | [] => true
  | a :: as => decide (P s a) && (M.step s a).elim false fun t => M.allMeet P t as

theorem Reach.of_run [∀ s a, Decidable (P s a)] (as : List α) : ∀ {s t : σ},
    M.Reach P s₀ s → M.allMeet P s as = true → M.run s as = some t → M.Reach P s₀ t := by
  induction as with
  | nil =>
    intro s t h _ hr
    cases hr
    exact h
  | cons a as ih =>
    intro s t h hm hr
    rw [run] at hr
    rw [allMeet, Bool.and_eq_true] at hm
    obtain ⟨hp, hm⟩ := hm
    cases hs : M.step s a with
    | none => rw [hs] at hr; cases hr
    | some u =>
      rw [hs] at hr hm
      exact ih (.step h (of_decide_eq_true hp) hs) hm hr

end Machine

end Slurmpp
