/-
  A turn of `_cycle_job_list`, and that everybody gets one.

  The job list is rotated WHILE it is walked, but deactivated jobs are not moved again, so what comes out is the jobs
  that were not active, in order, then the jobs that were, in order (`reprioritize_eq`).  Then the row is built
  greedily from the front, and jobs are stopped and woken until exactly the active ones run.

  Without shadows the row is empty at first, so the first job of the list fits.  This is all that fairness needs:
  `Turns.served` gives `cycle_serves_all`, that in any `n` consecutive calls each of `n` jobs is active.
-/
import Slurmpp.Lib.Turns
import Slurmpp.Gang.Frame

namespace Slurmpp.Gang

open List Function

namespace Gs

/-! ## The rotation -/

def isActive (job : Nat → GsJob) (j : Nat) : Bool := decide ((job j).rowState = .active)

/-- All jobs of `l` are out of the row. -/
def deactivate (l : List Nat) (job : Nat → GsJob) (j : Nat) : GsJob :=
  if j ∈ l then { job j with rowState := .noActive } else job j

variable {job : Nat → GsJob} {l m : List Nat} {j : Nat}

theorem deactivate_nil : deactivate [] job = job := by
  funext j
  simp [deactivate]

theorem deactivate_deactivate : deactivate l (deactivate m job) = deactivate (m ++ l) job := by
  funext j
  simp only [deactivate, mem_append]
  by_cases hl : j ∈ l <;> by_cases hm : j ∈ m <;> simp [hl, hm]

theorem deactivate_singleton : deactivate [j] job = update job j { job j with rowState := .noActive } := by
  funext k
  rw [update_apply, deactivate]
  by_cases h : k = j
  · subst h
    simp
  · simp [h]

theorem deactivate_congr (h : ∀ k, k ∈ l ↔ k ∈ m) : deactivate l job = deactivate m job := by
  funext k
  simp only [deactivate, h k]

theorem deactivate_of_noActive (h : (job j).rowState = .noActive) : deactivate [j] job = job := by
  rw [deactivate_singleton]
  refine update_eq_self_iff.2 ?_
  rw [← h]

theorem isActive_deactivate : isActive (deactivate l job) j = (isActive job j && decide (j ∉ l)) := by
  rw [isActive, isActive, deactivate]
  by_cases h : j ∈ l <;> simp [h]

theorem toBack_eq {fuel : Nat} (hl : ∀ j ∈ l, isActive job j = true)
    (hm : ∀ j ∈ m.head?, isActive job j = false) (hnodup : (l ++ m).Nodup)
    (hfuel : l.length ≤ fuel) : toBack fuel job (l ++ m) = (deactivate l job, m ++ l) := by
  induction l generalizing fuel job m with
  | nil =>
    rw [deactivate_nil, nil_append, append_nil]
    cases fuel with
    | zero => rfl
    | succ fuel =>
      cases m with
      | nil => rfl
      | cons j m =>
        have := hm j rfl
        rw [isActive, decide_eq_false_iff_not] at this
        rw [toBack, if_neg this]
  | cons j l ih =>
    obtain ⟨fuel, rfl⟩ : ∃ n, fuel = n + 1 :=
      Nat.exists_eq_succ_of_ne_zero (by rw [length_cons] at hfuel; omega)
    have hj : (job j).rowState = .active := by
      simpa [isActive] using hl j mem_cons_self
    rw [cons_append, nodup_cons] at hnodup
    rw [cons_append, toBack, if_pos hj, ← deactivate_singleton, append_assoc]
    rw [ih, deactivate_deactivate, append_assoc]
    · rfl
    · intro k hk
      have hne : k ≠ j := by
        rintro rfl
        exact hnodup.1 (mem_append_left _ hk)
      rw [isActive_deactivate, hl k (mem_cons_of_mem _ hk)]
      simp [hne]
    · -- the first of the rest was not active before, or it is `j` itself
      intro k hk
      rw [isActive_deactivate]
      cases m with
      | nil =>
        obtain rfl : j = k := by simpa using hk
        simp
      | cons i m =>
        obtain rfl : i = k := by simpa using hk
        rw [hm i rfl]
        rfl
    · rw [← append_assoc, nodup_append_comm]
      exact nodup_cons.2 hnodup
    · rw [length_cons] at hfuel
      omega

theorem front_split (job : Nat → GsJob) (l : List Nat) : ∃ a b, l = a ++ b ∧
    (∀ j ∈ a, isActive job j = true) ∧ ∀ j ∈ b.head?, isActive job j = false := by
  refine ⟨l.takeWhile (isActive job), l.dropWhile (isActive job), ?_, fun j hj => ?_, ?_⟩
  · exact (takeWhile_append_dropWhile).symm
  · exact mem_takeWhile_imp hj
  · intro j hj
    have := head?_dropWhile_not (isActive job) l
    rw [Option.mem_def.1 hj] at this
    simpa using this

theorem fill_front (hj : isActive job j = false) (hjl : j ∉ l) :
    (if (deactivate l job j).rowState = .filler then
      update (deactivate l job) j { deactivate l job j with rowState := .noActive }
      else deactivate l job) = deactivate (l ++ [j]) job := by
  rw [← deactivate_deactivate]
  split_ifs with hf
  · rw [deactivate_singleton]
  · refine (deactivate_of_noActive ?_).symm
    have hrow : (deactivate l job j).rowState = (job j).rowState := by simp [deactivate, hjl]
    rw [isActive, decide_eq_false_iff_not] at hj
    rw [hrow] at hf ⊢
    cases h : (job j).rowState with
    | active => exact absurd h hj
    | noActive => rfl
    | filler => exact absurd h hf

/-- **The rotation**: who was active goes behind who was not, and nobody is in the row. -/
theorem reprioritize_eq (hnodup : l.Nodup) :
    reprioritize l.length job l = (deactivate l job, Turns.setBack (isActive job) l) := by
  induction hn : l.length generalizing l job with
  | zero =>
    obtain rfl := length_eq_zero_iff.1 hn
    rw [reprioritize, deactivate_nil]
    rfl
  | succ n ih =>
    obtain ⟨a, b, rfl, ha, hb⟩ := front_split job l
    have hback := toBack_eq ha hb hnodup (sublist_append_left a b).length_le
    rw [hn] at hback
    rw [reprioritize, hn, hback]
    cases b with
    | nil =>
      -- everybody was active: the rest of the loop finds nobody active
      rw [append_nil] at hn hnodup ⊢
      rw [nil_append, Turns.setBack_of_all ha]
      cases a with
      | nil => cases hn
      | cons i a =>
        have hi : (deactivate (i :: a) job i).rowState ≠ .filler := by simp [deactivate]
        have hrest := @ih (deactivate (i :: a) job) a (nodup_cons.1 hnodup).2 (Nat.succ.inj hn)
        have hnone : Turns.setBack (isActive (deactivate (i :: a) job)) a = a :=
          Turns.setBack_of_none fun j hj => by
            simp [isActive_deactivate, mem_cons_of_mem _ hj]
        simp only [if_neg hi, hrest, hnone, deactivate_deactivate]
        rw [deactivate_congr fun k => ?_]
        simp only [mem_append, mem_cons]
        tauto
    | cons i b =>
      have hi := hb i rfl
      have hia : i ∉ a := fun h => by
        have := ha i h
        rw [hi] at this
        cases this
      have hnodup' : (b ++ a).Nodup := by
        rw [nodup_append_comm]
        exact hnodup.sublist (append_sublist_append_left a |>.2 (sublist_cons_self i b))
      have hib : i ∉ b := by
        have := (nodup_append.1 hnodup).2.1
        exact (nodup_cons.1 this).1
      have hlen : (b ++ a).length = n := by
        rw [length_append, length_cons] at hn
        rw [length_append]
        omega
      simp only [cons_append, fill_front hi hia,
        @ih (deactivate (a ++ [i]) job) (b ++ a) hnodup' hlen, deactivate_deactivate]
      refine Prod.ext ?_ (Turns.setBack_front ha hi (fun j hj => ?_) fun j hj => ?_).symm
      · refine deactivate_congr fun k => ?_
        simp only [mem_append, mem_cons, not_mem_nil]
        tauto
      · have hja : j ∉ a := fun h => (nodup_append.1 hnodup').2.2 j hj j h rfl
        have hji : j ≠ i := fun h => hib (h ▸ hj)
        rw [isActive_deactivate]
        simp [hja, hji]
      · rw [isActive_deactivate]
        simp [hj]

/-! ## The row and the signals -/

variable {ι : Type*} [DecidableEq ι] {g : Gs ι} {p : ι} {P : Phys}

theorem job_stopJob (k : Nat) : (stopJob p g j).job k =
    if k = j ∧ (g.job k).rowState = .noActive then { g.job k with sigState := .suspend } else g.job k := by
  rw [stopJob]
  split_ifs with h hk hk
  · rw [job_clearShadow, job_suspendJob, if_pos hk.1, hk.1]
  · rw [job_clearShadow, job_suspendJob, if_neg fun hkj => hk ⟨hkj, hkj ▸ h.1⟩]
  · cases hsig : (g.job k).sigState with
    | suspend => rw [← hsig]
    | resume => exact absurd (hk.1 ▸ ⟨hk.2, hsig⟩) h
  · rfl

theorem job_wakeJob (k : Nat) : (wakeJob p g j).job k =
    if k = j ∧ (g.job k).rowState = .active then { g.job k with sigState := .resume } else g.job k := by
  rw [wakeJob]
  split_ifs with h hk hk
  · rw [job_castShadow, job_resumeJob, if_pos hk.1, hk.1]
  · rw [job_castShadow, job_resumeJob, if_neg fun hkj => hk ⟨hkj, hkj ▸ h.1⟩]
  · cases hsig : (g.job k).sigState with
    | suspend => exact absurd (hk.1 ▸ ⟨hk.2, hsig⟩) h
    | resume => rw [← hsig]
  · rfl

theorem rowState_stopJob (k : Nat) : ((stopJob p g j).job k).rowState = (g.job k).rowState := by
  rw [job_stopJob]
  split_ifs <;> rfl

theorem rowState_wakeJob (k : Nat) : ((wakeJob p g j).job k).rowState = (g.job k).rowState := by
  rw [job_wakeJob]
  split_ifs <;> rfl

theorem rowState_activate (k : Nat) :
    ((activate P p g j).job k).rowState = .active ∨ ((activate P p g j).job k).rowState = (g.job k).rowState := by
  rw [activate]
  split_ifs
  · rw [job_setRow]
    split_ifs
    · exact .inl rfl
    · exact .inr rfl
  · exact .inr rfl

/-- What the building of a row leaves alone. -/
def listsOf (r : GsPart) : List Nat × List Nat := (r.jobList, r.shadow)

theorem lists_putInRow (q : ι) : listsOf ((g.putInRow P p j).part q) = listsOf (g.part q) :=
  field_setPart listsOf (by rfl)

theorem lists_clearRow (q : ι) :
    listsOf ((g.setPart p { g.part p with jobsActive := 0 }).part q) = listsOf (g.part q) :=
  field_setPart listsOf (by rfl)

theorem lists_applyShadows (q : ι) : listsOf ((g.applyShadows P p).part q) = listsOf (g.part q) :=
  foldl_keeps (I := fun g' : Gs ι => listsOf (g'.part q) = listsOf (g.part q))
    (fun _ _ _ h => (lists_putInRow q).trans h) (lists_clearRow q)

theorem lists_buildActiveRow (q : ι) : listsOf ((g.buildActiveRow P p).part q) = listsOf (g.part q) := by
  rw [buildActiveRow]
  split_ifs
  · exact lists_clearRow q
  · refine foldl_keeps (I := fun g' : Gs ι => listsOf (g'.part q) = listsOf (g.part q))
      (fun g' j _ h => ?_) (lists_applyShadows q)
    rw [activate]
    split_ifs
    · exact (lists_putInRow q).trans h
    · exact h

theorem jobList_buildActiveRow (q : ι) : ((g.buildActiveRow P p).part q).jobList = (g.part q).jobList :=
  congrArg Prod.fst (lists_buildActiveRow q)

theorem jobList_stopJob (q : ι) : ((stopJob p g j).part q).jobList = (g.part q).jobList := by
  rw [stopJob]
  split_ifs
  · rw [part_clearShadow]
    rfl
  · rfl

theorem jobList_wakeJob (q : ι) : ((wakeJob p g j).part q).jobList = (g.part q).jobList := by
  rw [wakeJob]
  split_ifs
  · rw [part_castShadow]
    rfl
  · rfl

theorem job_applyShadows : (g.applyShadows P p).job = g.job := by
  rw [applyShadows]
  exact foldl_keeps (f := fun g j => g.putInRow P p j) (I := fun g' : Gs ι => g'.job = g.job)
    (fun _ _ _ h => h) (job_setPart _)

theorem rowState_buildActiveRow {k : Nat} (hk : (g.job k).rowState = .noActive) :
    ((g.buildActiveRow P p).job k).rowState = .active ∨ ((g.buildActiveRow P p).job k).rowState = .noActive := by
  rw [buildActiveRow]
  split_ifs
  · exact .inr hk
  · refine foldl_keeps (I := fun g' : Gs ι => (g'.job k).rowState = .active ∨
      (g'.job k).rowState = .noActive) (fun g' j _ h => ?_) ?_
    · rcases rowState_activate (g := g') k with h' | h'
      · exact .inl h'
      · rw [h']
        exact h
    · rw [job_applyShadows]
      exact .inr hk

/-- **Without shadows the first job of the list is in the row**, whatever it needs. -/
theorem active_first (rest : List Nat) (hs : (g.part p).shadow = []) (hl : (g.part p).jobList = j :: rest) :
    ((g.buildActiveRow P p).job j).rowState = .active := by
  rw [buildActiveRow, hl, if_neg (by simp), foldl_cons]
  refine foldl_keeps (I := fun g' : Gs ι => (g'.job j).rowState = .active) (fun g' k _ h => ?_) ?_
  · rcases rowState_activate (g := g') j with h' | h'
    · exact h'
    · rw [h', h]
  · have hempty : (((g.applyShadows P p)).part p).jobsActive = 0 := by
      rw [applyShadows, hs, foldl_nil, part_setPart_self]
    rw [activate, fits, if_pos (jobFitsInActiveRow_of_empty hempty), job_setRow, if_pos rfl]

/-! ## One call -/

theorem cycleRows_eq (hnodup : (g.part p).jobList.Nodup) :
    g.cycleRows P p = ({ g with job := deactivate (g.part p).jobList g.job }.setPart p
      { g.part p with jobList := Turns.setBack (isActive g.job) (g.part p).jobList }).buildActiveRow P p := by
  rw [cycleRows, reprioritize_eq hnodup]

theorem jobList_cycleJobList (hnodup : (g.part p).jobList.Nodup) :
    ((g.cycleJobList P p).part p).jobList = Turns.setBack (isActive g.job) (g.part p).jobList := by
  have hrows : ((g.cycleRows P p).part p).jobList = Turns.setBack (isActive g.job) (g.part p).jobList := by
    rw [cycleRows_eq hnodup, jobList_buildActiveRow, part_setPart_self]
  refine Eq.trans ?_ hrows
  refine foldl_keeps (I := fun g' : Gs ι => (g'.part p).jobList = ((g.cycleRows P p).part p).jobList)
    (fun _ _ _ h => (jobList_wakeJob p).trans h) ?_
  exact foldl_keeps (I := fun g' : Gs ι => (g'.part p).jobList = ((g.cycleRows P p).part p).jobList)
    (fun _ _ _ h => (jobList_stopJob p).trans h) rfl

theorem rowState_cycleJobList (k : Nat) :
    ((g.cycleJobList P p).job k).rowState = ((g.cycleRows P p).job k).rowState := by
  refine foldl_keeps (I := fun g' : Gs ι => (g'.job k).rowState = _)
    (fun _ _ _ h => (rowState_wakeJob k).trans h) ?_
  exact foldl_keeps (I := fun g' : Gs ι => (g'.job k).rowState = _)
    (fun _ _ _ h => (rowState_stopJob k).trans h) rfl

theorem rowState_of_mem (hnodup : (g.part p).jobList.Nodup) (hj : j ∈ (g.part p).jobList) :
    ((g.cycleJobList P p).job j).rowState = .active ∨ ((g.cycleJobList P p).job j).rowState = .noActive := by
  rw [rowState_cycleJobList, cycleRows_eq hnodup]
  refine rowState_buildActiveRow ?_
  rw [job_setPart]
  simp [deactivate, hj]

theorem stop_loop (hj : j ∈ l) (hrow : ((l.foldl (stopJob p) g).job j).rowState = .noActive) :
    ((l.foldl (stopJob p) g).job j).sigState = .suspend := by
  refine foldl_each (Q := fun k (g' : Gs ι) => (g'.job k).rowState = .noActive →
    (g'.job k).sigState = .suspend) (fun g' k _ hk => ?_) (fun g' k _ i _ h hi => ?_) g j hj hrow
  · rw [rowState_stopJob] at hk
    rw [job_stopJob, if_pos ⟨rfl, hk⟩]
  · rw [rowState_stopJob] at hi
    rw [job_stopJob]
    split_ifs
    · rfl
    · exact h hi

theorem wake_loop (hj : j ∈ l) (hrow : ((l.foldl (wakeJob p) g).job j).rowState = .active) :
    ((l.foldl (wakeJob p) g).job j).sigState = .resume := by
  refine foldl_each (Q := fun k (g' : Gs ι) => (g'.job k).rowState = .active →
    (g'.job k).sigState = .resume) (fun g' k _ hk => ?_) (fun g' k _ i _ h hi => ?_) g j hj hrow
  · rw [rowState_wakeJob] at hk
    rw [job_wakeJob, if_pos ⟨rfl, hk⟩]
  · rw [rowState_wakeJob] at hi
    rw [job_wakeJob]
    split_ifs
    · rfl
    · exact h hi

theorem wake_loop_keeps (hrow : (g.job j).rowState = .noActive) : (l.foldl (wakeJob p) g).job j = g.job j := by
  refine foldl_keeps (I := fun g' : Gs ι => g'.job j = g.job j) (fun g' k _ h => ?_) rfl
  rw [job_wakeJob, h, if_neg (by simp [hrow])]

/-- **Exactly the active jobs run** after a call. -/
theorem sigState_cycleJobList (hnodup : (g.part p).jobList.Nodup) (hj : j ∈ (g.part p).jobList) :
    ((g.cycleJobList P p).job j).sigState = .resume ↔ ((g.cycleJobList P p).job j).rowState = .active := by
  have hmem : j ∈ ((g.cycleRows P p).part p).jobList := by
    rw [cycleRows_eq hnodup, jobList_buildActiveRow, part_setPart_self]
    exact Turns.mem_setBack.2 hj
  have hlist : ((((g.cycleRows P p).part p).jobList.foldl (stopJob p) (g.cycleRows P p)).part
      p).jobList = ((g.cycleRows P p).part p).jobList :=
    foldl_keeps (I := fun g' : Gs ι => (g'.part p).jobList = _)
      (fun _ _ _ h => (jobList_stopJob p).trans h) rfl
  rcases rowState_of_mem hnodup hj with hact | hno
  · refine iff_of_true ?_ hact
    rw [cycleJobList, hlist] at hact ⊢
    exact wake_loop hmem hact
  · refine iff_of_false ?_ (by rw [hno]; simp)
    rw [rowState_cycleJobList] at hno
    have hno' : ((((g.cycleRows P p).part p).jobList.foldl (stopJob p)
        (g.cycleRows P p)).job j).rowState = .noActive :=
      foldl_keeps (I := fun g' : Gs ι => (g'.job j).rowState = .noActive)
        (fun _ _ _ h => (rowState_stopJob j).trans h) hno
    rw [cycleJobList, wake_loop_keeps hno', stop_loop hmem hno']
    simp

theorem sigState_cycleRows (hnodup : (g.part p).jobList.Nodup) (k : Nat) :
    ((g.cycleRows P p).job k).sigState = (g.job k).sigState := by
  have hstart : (deactivate (g.part p).jobList g.job k).sigState = (g.job k).sigState := by
    rw [deactivate]
    split_ifs <;> rfl
  rw [cycleRows_eq hnodup, buildActiveRow]
  split_ifs
  · exact hstart
  · refine foldl_keeps (I := fun g' : Gs ι => (g'.job k).sigState = (g.job k).sigState)
      (fun g' j _ h => ?_) ?_
    · rw [activate]
      split_ifs
      · rw [job_setRow]
        split_ifs with hk
        · rw [← h, hk]
          rfl
        · exact h
      · exact h
    · rw [job_applyShadows]
      exact hstart

/-! ### As others see it -/

namespace Reworks

theorem buildActiveRow : Reworks p g (g.buildActiveRow P p) := by
  rw [Gs.buildActiveRow]
  split_ifs
  · exact setPart rfl rfl (.refl _) rfl
  · exact applyShadows.trans (foldl (fun _ _ _ hj => activate hj) fun j hj =>
      applyShadows.mem_jobList.2 hj)

theorem cycleRows (hnodup : (g.part p).jobList.Nodup) : Reworks p g (g.cycleRows P p) := by
  have hjob : Reworks p g { g with job := deactivate (g.part p).jobList g.job } := by
    refine ⟨rfl, rfl, fun _ => rfl, fun _ => rfl, fun _ => .refl _, fun j => ?_, fun j hj => ?_,
      fun _ _ _ => .rfl, fun _ _ => List.Subset.refl _⟩
    · dsimp only [deactivate]
      split_ifs <;> rfl
    · exact if_neg hj
  rw [cycleRows_eq hnodup]
  have hpart : Reworks p { g with job := deactivate (g.part p).jobList g.job }
      ({ g with job := deactivate (g.part p).jobList g.job }.setPart p
        { g.part p with jobList := Turns.setBack (isActive g.job) (g.part p).jobList }) :=
    setPart rfl rfl Turns.setBack_perm rfl
  exact hjob.trans (hpart.trans buildActiveRow)

theorem cycleJobList (hnodup : (g.part p).jobList.Nodup) : Reworks p g (g.cycleJobList P p) := by
  have h : Reworks p g (g.cycleRows P p) := cycleRows hnodup
  have h' := h.trans (foldl (fun _ _ _ hj => stopJob hj) fun _ hj => hj)
  exact h'.trans (foldl (fun _ _ _ hj => wakeJob hj) fun _ hj => hj)

end Reworks

/-! ## Any number of calls -/

/-- **Nobody starves.**  In a partition without shadows, from any state of rows and signals:

    1. a call leaves the jobs that were active behind all others, both groups in their order;
    2. after it exactly the active jobs run;
    3. in `n` consecutive calls each of `n` jobs is active after at least one. -/
theorem cycle_serves_all (P : Phys) (g : Gs ι) (p : ι) (hnodup : (g.part p).jobList.Nodup)
    (hs : (g.part p).shadow = []) :
    ((g.cycleJobList P p).part p).jobList =
      (g.part p).jobList.filter (fun j => decide ((g.job j).rowState ≠ .active)) ++
        (g.part p).jobList.filter (fun j => decide ((g.job j).rowState = .active)) ∧
    (∀ j ∈ (g.part p).jobList, ((g.cycleJobList P p).job j).sigState = .resume ↔
      ((g.cycleJobList P p).job j).rowState = .active) ∧
    ∀ j ∈ (g.part p).jobList, ∃ k, 0 < k ∧ k ≤ (g.part p).jobList.length ∧
      ((((fun g => g.cycleJobList P p)^[k] g).job j).rowState = .active) := by
  refine ⟨?_, fun j hj => sigState_cycleJobList hnodup hj, fun j hj => ?_⟩
  · rw [jobList_cycleJobList hnodup, Turns.setBack]
    congr 1
    exact filter_congr fun j _ => by simp [isActive]
  · -- a call keeps what the next one needs
    have hinv : ∀ k, (((fun g => g.cycleJobList P p)^[k] g).part p).jobList.Nodup ∧
        (((fun g => g.cycleJobList P p)^[k] g).part p).shadow = [] := by
      intro k
      induction k with
      | zero => exact ⟨hnodup, hs⟩
      | succ k ih =>
        rw [iterate_succ_apply']
        have h := Reworks.cycleJobList (P := P) ih.1
        refine ⟨(h.jobs p).nodup_iff.2 ih.1, eq_nil_of_subset_nil ?_⟩
        rw [← ih.2]
        exact h.above p le_rfl
    have hqueue : ∀ k, (((fun g => g.cycleJobList P p)^[k + 1] g).part p).jobList =
        Turns.setBack (isActive ((fun g => g.cycleJobList P p)^[k] g).job)
          (((fun g => g.cycleJobList P p)^[k] g).part p).jobList := by
      intro k
      rw [iterate_succ_apply', jobList_cycleJobList (hinv k).1]
    -- the row is empty when the first job of the list is put in
    have hfirst : ∀ k i rest, (((fun g => g.cycleJobList P p)^[k + 1] g).part p).jobList = i :: rest →
        isActive ((fun g => g.cycleJobList P p)^[k + 1] g).job i = true := by
      intro k i rest hq
      rw [hqueue] at hq
      rw [iterate_succ_apply', isActive, rowState_cycleJobList, cycleRows_eq (hinv k).1, decide_eq_true_eq]
      refine active_first rest ?_ ?_
      · rw [part_setPart_self]
        exact (hinv k).2
      · rw [part_setPart_self]
        exact hq
    obtain ⟨k, hk, hle, hserved⟩ := Turns.served
      (q := fun k => (((fun g => g.cycleJobList P p)^[k] g).part p).jobList)
      (s := fun k => isActive ((fun g => g.cycleJobList P p)^[k] g).job) hqueue hfirst hj
    exact ⟨k, hk, hle, of_decide_eq_true hserved⟩

def duel : Gs Unit where
  partList := [()]
  part _ := ⟨"debug".toList, 1, [0, 1], [], 1, some {0}, none⟩
  job j := ⟨⟨j + 1, "debug".toList, ⟨{0}, {0}, [1]⟩, .suspend⟩,
    if j = 0 then .resume else .suspend, if j = 0 then .active else .noActive⟩
  next := 2
  signals := []

theorem cycle_serves_all_duel :
    ∃ k, 0 < k ∧ k ≤ 2 ∧
      (((fun g : Gs Unit => g.cycleJobList ⟨.core, [1], [1]⟩ ())^[k] duel).job 0).rowState =
        .active :=
  (cycle_serves_all ⟨.core, [1], [1]⟩ duel () (by decide) rfl).2.2 0 (by decide)

end Gs

end Slurmpp.Gang
