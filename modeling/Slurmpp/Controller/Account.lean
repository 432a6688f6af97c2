/-
  What a controller's counters count.  They only go up and down by one, under different locks; what they mean is a
  sum over all jobs of what each job's threads have done:

  * `num_job_fin`      — how often this controller has counted a job;
  * `num_job_fail`     — the controller's own jobs that asked for too many nodes;
  * `num_proc_thread`  — the controller's own jobs that OCCUPY a slot.  `main` counts a thread only after starting
                         it, so one may be missing (`starting`), and the counter may even be negative.

  `Accounts` holds in every run, whatever messages come and whatever the store says.
-/
import Slurmpp.Lib.Threads
import Slurmpp.Controller.Launch

namespace Slurmpp.Controller

open Function

variable {κ δ : Type*}

/-! ## Shares -/

/-- The launch thread has a slot: it runs and has not launched its job yet, or it is gone and has
    not freed the slot. -/
def Launch.occupies : Launch → Bool
  | .begun | .alloc | .insert _ | .launching | .exited | .failed | .fault _ => true
  | .queued | .check | .waiting | .guard | .count | .ended => false

/-- What the counters see of a launch thread. -/
def Launch.share (pc : Launch) : Bool × Bool × Bool :=
  (pc.occupies, decide (pc = .failed), decide (pc = .queued))

namespace Setup

variable (S : Setup κ δ)

/-- A job's share of `num_job_fail` of controller `c`. -/
def fails (c : Text) (j : κ) (a : Slip δ) : ℕ :=
  if S.origin j = c ∧ a.launch = .failed then 1 else 0

/-- A job's share of the slots of controller `c`. -/
def slots (c : Text) (j : κ) (a : Slip δ) : ℕ :=
  if S.origin j = c ∧ a.launch.occupies = true then 1 else 0

end Setup

/-- The thread `main` has started and not counted yet. -/
def Office.uncounted (k : Office κ) : ℤ := if k.starting then 1 else 0

/-- **The books of all controllers.** -/
structure Accounts [Fintype κ] (S : Setup κ δ) (s : System κ δ) : Prop where
  fin : ∀ c, (s.office c).numJobFin = ∑ j, (s.slip j).fins c
  fail : ∀ c, (s.office c).numJobFail = ∑ j, S.fails c j (s.slip j)
  slots : ∀ c, (s.office c).numProcThread + (s.office c).uncounted = ((∑ j, S.slots c j (s.slip j) : ℕ) : ℤ)
  nodup : ∀ c, (s.office c).queue.Nodup
  queue : ∀ c j, j ∈ (s.office c).queue ↔ S.origin j = c ∧ (s.slip j).launch = .queued

/-! ## Steps -/

section Steps

variable [Fintype κ] [DecidableEq κ] {S : Setup κ δ} {s : System κ δ} {j : κ} {a : Slip δ}
  {w : World (κ × Option δ) κ} {o : Text → Office κ}

section

variable (h : Accounts S s)
include h

theorem Accounts.move
    (hsums : ∀ c, (o c).numJobFin + (s.slip j).fins c = (s.office c).numJobFin + a.fins c ∧
      (o c).numJobFail + S.fails c j (s.slip j) = (s.office c).numJobFail + S.fails c j a ∧
      (o c).numProcThread + (o c).uncounted + (S.slots c j (s.slip j) : ℤ) =
        (s.office c).numProcThread + (s.office c).uncounted + (S.slots c j a : ℤ))
    (hnodup : ∀ c, (o c).queue.Nodup)
    (hqueue : ∀ c j', j' ∈ (o c).queue ↔
      S.origin j' = c ∧ (update s.slip j a j').launch = .queued) : Accounts S ⟨w, update s.slip j a, o⟩ := by
  refine ⟨fun c => ?_, fun c => ?_, fun c => ?_, hnodup, hqueue⟩
  · have hsum := sum_update (fun _ (b : Slip δ) => b.fins c) s.slip j a
    have := (hsums c).1
    have := h.fin c
    dsimp only at hsum ⊢
    omega
  · have hsum := sum_update (S.fails c) s.slip j a
    have := (hsums c).2.1
    have := h.fail c
    dsimp only
    omega
  · have hsum := sum_update (S.slots c) s.slip j a
    have := (hsums c).2.2
    have := h.slots c
    dsimp only
    omega

theorem Accounts.quiet (hfin : a.fins = (s.slip j).fins)
    (hshare : a.launch.share = (s.slip j).launch.share) : Accounts S ⟨w, update s.slip j a, s.office⟩ := by
  simp only [Launch.share, Prod.mk.injEq, decide_eq_decide] at hshare
  obtain ⟨hslot, hfail, hqueue⟩ := hshare
  have hf : ∀ c, S.fails c j a = S.fails c j (s.slip j) := fun c => by
    simp only [Setup.fails, hfail]
  have hs : ∀ c, S.slots c j a = S.slots c j (s.slip j) := fun c => by
    simp only [Setup.slots, hslot]
  refine h.move (fun c => ?_) h.nodup fun c j' => ?_
  · rw [hfin, hf, hs]
    exact ⟨rfl, rfl, rfl⟩
  rw [h.queue c j']
  by_cases hj : j' = j
  · subst hj
    rw [update_self, hqueue]
  · rw [update_of_ne hj]

theorem Accounts.launchTo {pc pc' : Launch} (hl : (s.slip j).launch = pc)
    (hshare : pc'.share = pc.share) : Accounts S ⟨w, s.launchTo j pc', s.office⟩ :=
  h.quiet rfl (by rw [hl]; exact hshare)

theorem Accounts.handlerTo [DecidableEq δ] {d : δ} {pc : Handler} :
    Accounts S ⟨w, s.handlerTo j d pc, s.office⟩ :=
  h.quiet rfl rfl

theorem Accounts.charge {c0 : Text} {k : Office κ}
    (hfin : k.numJobFin + (s.slip j).fins c0 = (s.office c0).numJobFin + a.fins c0)
    (hfins : ∀ c, c ≠ c0 → a.fins c = (s.slip j).fins c)
    (hfail : k.numJobFail + S.fails c0 j (s.slip j) = (s.office c0).numJobFail + S.fails c0 j a)
    (hfails : ∀ c, c ≠ c0 → S.fails c j a = S.fails c j (s.slip j))
    (hslot : k.numProcThread + k.uncounted + (S.slots c0 j (s.slip j) : ℤ) =
      (s.office c0).numProcThread + (s.office c0).uncounted + (S.slots c0 j a : ℤ))
    (hslots : ∀ c, c ≠ c0 → S.slots c j a = S.slots c j (s.slip j))
    (hq : k.queue = (s.office c0).queue)
    (hqueue : a.launch = .queued ↔ (s.slip j).launch = .queued) :
    Accounts S ⟨w, update s.slip j a, update s.office c0 k⟩ := by
  have hkeep : ∀ c, (update s.office c0 k c).queue = (s.office c).queue := by
    intro c
    by_cases hc : c = c0
    · subst hc
      rw [update_self, hq]
    · rw [update_of_ne hc]
  refine h.move (fun c => ?_) (fun c => hkeep c ▸ h.nodup c) fun c j' => ?_
  · by_cases hc : c = c0
    · subst hc
      rw [update_self]
      exact ⟨hfin, hfail, hslot⟩
    · rw [update_of_ne hc, hfins c hc, hfails c hc, hslots c hc]
      exact ⟨rfl, rfl, rfl⟩
  · rw [hkeep, h.queue c j']
    by_cases hj : j' = j
    · subst hj
      rw [update_self, hqueue]
    · rw [update_of_ne hj]

end

omit [DecidableEq κ] in
theorem Accounts.counted (h : Accounts S s) {c0 : Text} (hs : (s.office c0).starting = true) :
    Accounts S ⟨w, s.slip, update s.office c0 { s.office c0 with
      starting := false, numProcThread := (s.office c0).numProcThread + 1 }⟩ := by
  have hsame : ∀ c, let k := update s.office c0 { s.office c0 with
        starting := false, numProcThread := (s.office c0).numProcThread + 1 } c
      k.numJobFin = (s.office c).numJobFin ∧ k.numJobFail = (s.office c).numJobFail ∧
        k.numProcThread + k.uncounted = (s.office c).numProcThread + (s.office c).uncounted ∧
        k.queue = (s.office c).queue := by
    intro c
    by_cases hc : c = c0
    · subst hc
      simp [Office.uncounted, hs]
    · rw [update_of_ne hc]
      exact ⟨rfl, rfl, rfl, rfl⟩
  refine ⟨fun c => (hsame c).1.trans (h.fin c), fun c => (hsame c).2.1.trans (h.fail c),
    fun c => (hsame c).2.2.1.trans (h.slots c), fun c => ?_, fun c j => ?_⟩
  · rw [(hsame c).2.2.2]
    exact h.nodup c
  · rw [(hsame c).2.2.2]
    exact h.queue c j

theorem Accounts.popped (h : Accounts S s) {c0 : Text} {queue : List κ}
    (hs : (s.office c0).starting = false) (hq : (s.office c0).queue = j :: queue) :
    Accounts S ⟨w, s.launchTo j .begun, update s.office c0
      { s.office c0 with queue := queue, starting := true }⟩ := by
  obtain ⟨ho, hl⟩ := (h.queue c0 j).1 (hq ▸ List.mem_cons_self)
  have hnd := h.nodup c0
  rw [hq, List.nodup_cons] at hnd
  have hfails : ∀ c, S.fails c j { s.slip j with launch := .begun } = S.fails c j (s.slip j) := fun c => by
    simp [Setup.fails, hl]
  refine h.move (fun c => ?_) (fun c => ?_) fun c j' => ?_
  · rw [hfails]
    by_cases hc : c = c0
    · subst hc
      rw [update_self]
      refine ⟨rfl, rfl, ?_⟩
      simp [Setup.slots, Office.uncounted, hl, ho, hs, Launch.occupies]
    · have hne : S.origin j ≠ c := fun he => hc (he.symm.trans ho)
      rw [update_of_ne hc]
      refine ⟨rfl, rfl, ?_⟩
      simp [Setup.slots, hne]
  · by_cases hc : c = c0
    · subst hc
      rw [update_self]
      exact hnd.2
    · rw [update_of_ne hc]
      exact h.nodup c
  · -- the queue of `c0` loses `j`, and `j` is queued no more
    have hmem := h.queue c j'
    by_cases hj : j' = j
    · subst hj
      rw [update_self]
      refine iff_of_false (fun hin => ?_) (by simp)
      by_cases hc : c = c0
      · subst hc
        rw [update_self] at hin
        exact hnd.1 hin
      · rw [update_of_ne hc] at hin
        exact hc ((hmem.1 hin).1.symm.trans ho)
    · rw [update_of_ne hj, ← hmem]
      by_cases hc : c = c0
      · subst hc
        rw [update_self, hq, List.mem_cons]
        simp [hj]
      · rw [update_of_ne hc]

variable [DecidableEq δ] {t : System κ δ}

/-- **Every turn keeps the books.** -/
theorem Accounts.step (h : Accounts S s) {b : Turn κ δ} (hs : (system S).step s b = some t) : Accounts S t := by
  obtain ⟨P, hP, hslip, hoffice, -⟩ := system_step hs
  obtain ⟨w, slip, office⟩ := t
  obtain rfl : slip = P.slip := hslip
  obtain rfl : office = P.office := hoffice
  cases hP with
  | counted c hc => exact h.counted hc
  | popped c j queue hc hq hn => exact h.popped hc hq
  | overrun _ _ hl | exited _ _ hl | start _ _ hl | returned _ _ _ hl | insert _ _ _ _ hl | inserted _ _ hl
  | here _ _ hl | away _ _ hl | told _ _ hl | below _ _ hl | above _ _ hl => exact h.launchTo hl rfl
  | act | untold | release => exact ⟨h.fin, h.fail, h.slots, h.nodup, h.queue⟩
  | deliver | origin | read | built | broken | released | leave => exact h.handlerTo
  | failed j rand hl jobDesc hw hr hn =>
    refine h.charge rfl (fun _ _ => rfl) ?_ (fun c hc => ?_) ?_ (fun c hc => ?_) rfl (by simp [hl])
    · simp [Setup.fails, hl]
    · simp [Setup.fails, Ne.symm hc]
    · simp [Setup.slots, hl, Launch.occupies, Office.uncounted]
    · simp [Setup.slots, Ne.symm hc]
  | launched j rand hl =>
    refine h.charge rfl (fun _ _ => rfl) ?_ (fun c hc => ?_) ?_ (fun c hc => ?_) rfl (by simp [hl])
    · simp [Setup.fails, hl]
    · simp [Setup.fails, hl]
    · simp [Setup.slots, hl, Launch.occupies, Office.uncounted]
      omega
    · simp [Setup.slots, Ne.symm hc]
  | count j rand hl =>
    refine h.charge ?_ (fun c hc => update_of_ne hc _ _) ?_ (fun c hc => ?_) ?_
      (fun c hc => ?_) rfl (by simp [hl])
    · simp
      omega
    · simp [Setup.fails, hl]
    · simp [Setup.fails, hl]
    · simp [Setup.slots, hl, Launch.occupies, Office.uncounted]
    · simp [Setup.slots, hl, Launch.occupies]
  | fin j d hd =>
    refine h.charge ?_ (fun c hc => update_of_ne hc _ _) rfl (fun c hc => rfl) rfl
      (fun c hc => rfl) rfl Iff.rfl
    simp
    omega

end Steps

end Slurmpp.Controller
