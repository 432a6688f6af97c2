/-
  Circular dependencies.  An edge of the dependency graph goes from an unfinished job to an unfinished job that an
  entry of its list stands for, as `test_job_dependency` takes it.

  `_scan_depend` sees less.  It compares ids and follows the POINTER: an entry for a whole array leads only to one of
  its jobs, and an entry of the old format for a task is taken for a purged job (`array_task_circle`).  On PLAIN
  entries, which stand for the job with their id and nothing else, the scan finds exactly what can be reached
  (`scan_iff`), up to `max_depend_depth` lists, and with `circle_iff` the call refuses exactly the texts that would
  close a circle (`circular_refused`).
-/
import Slurmpp.Lib.Digraph
import Slurmpp.Depend.Update

namespace Slurmpp.Depend

open Relation Option List

variable {s : Jobs} {j max : Nat} {e : DependSpec} {l : List DependSpec}

/-! ## The graph -/

def Jobs.entries (s : Jobs) (k : Nat) : List DependSpec :=
  ((s.job k).details.bind (·.dependList)).getD []

def Jobs.Unfinished (s : Jobs) (k : Nat) : Prop := (s.job k).jobState.isFinished = false

instance (k : Nat) : Decidable (s.Unfinished k) := inferInstanceAs (Decidable (_ = _))

/-- The entry stands for the job `k`. -/
def Jobs.Names (s : Jobs) (e : DependSpec) (k : Nat) : Prop :=
  e.dependType ≠ .singleton ∧ k ∈ s.jobList ∧
    if e.arrayTaskId = infinite16 then (s.job k).arrayJobId = e.jobId
    else e.jobPtr = some k ∧ ((s.job k).jobId = e.jobId ∨ (s.job k).arrayJobId = e.jobId)

instance (k : Nat) : Decidable (s.Names e k) := inferInstanceAs (Decidable (_ ∧ _ ∧ _))

/-- The jobs that a list of entries makes one wait for. -/
def Jobs.Waits (s : Jobs) (l : List DependSpec) (k : Nat) : Prop :=
  (∃ e ∈ l, s.Names e k) ∧ s.Unfinished k

instance (k : Nat) : Decidable (s.Waits l k) := inferInstanceAs (Decidable (_ ∧ _))

/-- **The dependency graph** of unfinished jobs. -/
def Jobs.Edge (s : Jobs) (k m : Nat) : Prop :=
  k ∈ s.jobList ∧ s.Unfinished k ∧ s.Waits (s.entries k) m

instance (k m : Nat) : Decidable (s.Edge k m) := inferInstanceAs (Decidable (_ ∧ _ ∧ _))

/-- The records with a valid magic are those in `job_list`, and have ids of their own. -/
structure Jobs.Wf (s : Jobs) : Prop where
  magic : ∀ k, (s.job k).magic = true ↔ k ∈ s.jobList
  ids : ∀ k ∈ s.jobList, ∀ m ∈ s.jobList, (s.job k).jobId = (s.job m).jobId → k = m
  nonzero : ∀ k ∈ s.jobList, (s.job k).jobId ≠ 0

/-- The entry stands for the job with its id, and for no other. -/
structure Jobs.Plain (s : Jobs) (e : DependSpec) : Prop where
  noArray : e.arrayTaskId ≠ infinite16
  noJob : e.dependType = .singleton → e.jobId = 0
  names : e.dependType ≠ .singleton → ∀ k ∈ s.jobList, (e.jobPtr = some k ∧
    ((s.job k).jobId = e.jobId ∨ (s.job k).arrayJobId = e.jobId)) ↔ (s.job k).jobId = e.jobId

variable {k jobId : Nat}

theorem Jobs.Plain.names_iff (h : s.Plain e) (hw : s.Wf) (hk : k ∈ s.jobList) :
    s.Names e k ↔ (s.job k).jobId = e.jobId := by
  rw [Names, if_neg h.noArray]
  constructor
  · rintro ⟨ht, -, hptr⟩
    exact (h.names ht k hk).1 hptr
  · intro hid
    have ht : e.dependType ≠ .singleton := fun ht => hw.nonzero k hk (hid.trans (h.noJob ht))
    exact ⟨ht, hk, (h.names ht k hk).2 hid⟩

theorem Jobs.Plain.jobPtr (h : s.Plain e) (hw : s.Wf) (hk : k ∈ s.jobList)
    (hid : (s.job k).jobId = e.jobId) : e.jobPtr = some k := by
  have hn := (h.names_iff hw hk).2 hid
  rw [Names, if_neg h.noArray] at hn
  exact hn.2.2.1

/-! ## What the scan looks at -/

/-- The list that the scan goes on with after an entry. -/
def Jobs.next (s : Jobs) (e : DependSpec) : Option (List DependSpec) :=
  e.jobPtr.bind fun d =>
    if e.jobId = (s.job d).jobId ∧ (s.job d).magic = true ∧ s.Unfinished d then
      (s.job d).details.bind (·.dependList)
    else none

/-- The id can be found from a list of entries. -/
inductive Jobs.Reaches (s : Jobs) (jobId : Nat) : List DependSpec → Prop
  | here {e : DependSpec} {l : List DependSpec} (he : e ∈ l) (h0 : e.jobId ≠ 0)
      (hid : e.jobId = jobId) : Reaches s jobId l
  | there {e : DependSpec} {l l' : List DependSpec} (he : e ∈ l) (h0 : e.jobId ≠ 0)
      (hnext : s.next e = some l') (h : Reaches s jobId l') : Reaches s jobId l

theorem scanEntries_cons (scan : Nat → List DependSpec → Bool × Nat) (c : Nat) :
    scanEntries s jobId scan c (e :: l) =
      if e.jobId = 0 then scanEntries s jobId scan c l
      else if e.jobId = jobId then (true, c)
      else
        match s.next e with
        | none => scanEntries s jobId scan c l
        | some l' => if (scan c l').1 then (true, (scan c l').2)
          else scanEntries s jobId scan (scan c l').2 l := by
  rw [scanEntries]
  split_ifs with h0 hid
  · rfl
  · rfl
  · unfold Jobs.next
    cases hptr : e.jobPtr with
    | none => rfl
    | some d =>
      dsimp only [bind_some]
      by_cases hlive : e.jobId = (s.job d).jobId ∧ (s.job d).magic = true
      · rw [if_neg (by simp [hlive.1, hlive.2])]
        cases hfin : (s.job d).jobState.isFinished with
        | true => simp [Jobs.Unfinished, hfin]
        | false =>
          rw [if_pos ⟨hlive.1, hlive.2, hfin⟩]
          cases (s.job d).details.bind (·.dependList) with
          | none => rfl
          | some l' =>
            dsimp only
            cases h : scan c l' with
            | mk found c' => cases found <;> rfl
      · have hpurged : e.jobId ≠ (s.job d).jobId ∨ (s.job d).magic = false := by
          rw [not_and_or] at hlive
          exact hlive.imp_right fun h => by simpa using h
        rw [if_pos hpurged, if_neg fun h => hlive ⟨h.1, h.2.1⟩]

variable {scan : Nat → List DependSpec → Bool × Nat}

theorem scanEntries_true (hscan : ∀ c l, (scan c l).1 = true → s.Reaches jobId l) :
    ∀ (l : List DependSpec) (c : Nat), (scanEntries s jobId scan c l).1 = true → s.Reaches jobId l := by
  intro l
  induction l with
  | nil => exact fun c h => absurd h (by simp [scanEntries])
  | cons e l ih =>
    intro c h
    have htail : s.Reaches jobId l → s.Reaches jobId (e :: l) := fun h => by
      cases h with
      | here he h0 hid => exact .here (mem_cons_of_mem _ he) h0 hid
      | there he h0 hnext h => exact .there (mem_cons_of_mem _ he) h0 hnext h
    rw [scanEntries_cons] at h
    split_ifs at h with h0 hid
    · exact htail (ih c h)
    · exact .here mem_cons_self h0 hid
    · split at h
      · exact htail (ih c h)
      next l' hnext =>
        split_ifs at h with hfound
        · exact .there mem_cons_self h0 hnext (hscan c l' hfound)
        · exact htail (ih _ h)

theorem scanDepend_true : ∀ (fuel c : Nat) (l : List DependSpec),
    (scanDepend s max jobId fuel c l).1 = true → s.Reaches jobId l := by
  intro fuel
  induction fuel with
  | zero => exact fun c l h => absurd h (by simp [scanDepend])
  | succ fuel ih =>
    intro c l h
    rw [scanDepend] at h
    split_ifs at h
    exact scanEntries_true ih l _ h

theorem scanEntries_counter (hscan : ∀ c l, c ≤ (scan c l).2) : ∀ (l : List DependSpec) (c : Nat),
    c ≤ (scanEntries s jobId scan c l).2 := by
  intro l
  induction l with
  | nil => exact fun c => le_refl _
  | cons e l ih =>
    intro c
    rw [scanEntries_cons]
    split_ifs
    · exact ih c
    · exact le_refl _
    · split
      · exact ih c
      next l' _ =>
        split_ifs
        · exact hscan c l'
        · exact (hscan c l').trans (ih _)

theorem scanDepend_counter : ∀ (fuel c : Nat) (l : List DependSpec), c ≤ (scanDepend s max jobId fuel c l).2 := by
  intro fuel
  induction fuel with
  | zero => exact fun c l => le_refl _
  | succ fuel ih =>
    intro c l
    rw [scanDepend]
    split_ifs
    · exact Nat.le_succ c
    · exact (Nat.le_succ c).trans (scanEntries_counter ih l _)

theorem scanEntries_false (hscan : ∀ c l, c ≤ (scan c l).2) : ∀ (l : List DependSpec) (c : Nat),
    (scanEntries s jobId scan c l).1 = false → ∀ e ∈ l, e.jobId ≠ 0 → e.jobId ≠ jobId ∧
      ∀ l', s.next e = some l' → ∃ c', c ≤ c' ∧ (scan c' l').1 = false ∧
        (scan c' l').2 ≤ (scanEntries s jobId scan c l).2 := by
  intro l
  induction l with
  | nil => exact fun c _ e he => absurd he (by simp)
  | cons e l ih =>
    intro c h e' he' h0'
    rw [scanEntries_cons] at h ⊢
    split_ifs at h ⊢ with h0 hid
    · -- a singleton
      rcases mem_cons.1 he' with rfl | he'
      · exact absurd h0 h0'
      · exact ih c h e' he' h0'
    · cases hnext : s.next e with
      | none =>
        rw [hnext] at h
        rcases mem_cons.1 he' with rfl | he'
        · exact ⟨hid, fun l' hl' => absurd (hnext.symm.trans hl') (by simp)⟩
        · exact ih c h e' he' h0'
      | some l' =>
        rw [hnext] at h
        dsimp only at h ⊢
        split_ifs at h ⊢ with hfound
        have hfalse : (scan c l').1 = false := by simpa using hfound
        rcases mem_cons.1 he' with rfl | he'
        · refine ⟨hid, fun l'' hl'' => ⟨c, le_refl _, ?_⟩⟩
          cases hnext.symm.trans hl''
          exact ⟨hfalse, scanEntries_counter hscan l _⟩
        · obtain ⟨hne, hrest⟩ := ih _ h e' he' h0'
          refine ⟨hne, fun l'' hl'' => ?_⟩
          obtain ⟨c', hc, hf, hle⟩ := hrest l'' hl''
          exact ⟨c', (hscan c l').trans hc, hf, hle⟩

/-- **What can be reached is found**, as long as the counter stays within its limit. -/
theorem scanDepend_false (hr : s.Reaches jobId l) {fuel c : Nat}
    (hfuel : max < c + fuel) (hlimit : (scanDepend s max jobId fuel c l).2 ≤ max) :
    (scanDepend s max jobId fuel c l).1 = true := by
  -- the induction is on the path; each list on it is scanned with its own counter
  induction hr generalizing fuel c with
  | @here e l he h0 hid =>
    cases fuel with
    | zero =>
      rw [scanDepend] at hlimit
      omega
    | succ fuel =>
      rw [scanDepend] at hlimit ⊢
      split_ifs at hlimit ⊢ with hc
      · omega
      · by_contra hf
        exact (scanEntries_false (scanDepend_counter fuel) l _ (by simpa using hf) e he h0).1 hid
  | @there e l l' he h0 hnext _ ih =>
    cases fuel with
    | zero =>
      rw [scanDepend] at hlimit
      omega
    | succ fuel =>
      rw [scanDepend] at hlimit ⊢
      split_ifs at hlimit ⊢ with hc
      · omega
      · by_contra hf
        obtain ⟨c', hc', hf', hle⟩ := (scanEntries_false (scanDepend_counter fuel) l _
          (by simpa using hf) e he h0).2 l' hnext
        have := @ih fuel c' (by omega) (hle.trans hlimit)
        rw [hf'] at this
        cases this

theorem scan_iff (hlimit : (scanDepend s max jobId (max + 1) 0 l).2 ≤ max) :
    (scanDepend s max jobId (max + 1) 0 l).1 = true ↔ s.Reaches jobId l :=
  ⟨scanDepend_true _ _ _, fun h => scanDepend_false h (by omega) hlimit⟩

/-! ## The scan and the graph -/

def Jobs.AllPlain (s : Jobs) : Prop :=
  ∀ k ∈ s.jobList, s.Unfinished k → ∀ e ∈ s.entries k, s.Plain e

theorem next_eq_some {l' : List DependSpec} (h : s.next e = some l') :
    ∃ d, e.jobPtr = some d ∧ e.jobId = (s.job d).jobId ∧ (s.job d).magic = true ∧
      s.Unfinished d ∧ s.entries d = l' := by
  obtain ⟨d, hptr, h⟩ := bind_eq_some_iff.1 h
  obtain ⟨⟨hid, hm, hu⟩, h⟩ := ite_none_right_eq_some.1 h
  exact ⟨d, hptr, hid, hm, hu, by rw [Jobs.entries, h]; rfl⟩

theorem next_of_names (hw : s.Wf) (he : s.Plain e) (hk : k ∈ s.jobList)
    (hid : (s.job k).jobId = e.jobId) (hu : s.Unfinished k) (hne : s.entries k ≠ []) :
    s.next e = some (s.entries k) := by
  have hlist : (s.job k).details.bind (·.dependList) = some (s.entries k) := by
    unfold Jobs.entries at hne ⊢
    cases h : (s.job k).details.bind (·.dependList) with
    | none =>
      rw [h] at hne
      exact absurd rfl hne
    | some l' => rfl
  rw [Jobs.next, he.jobPtr hw hk hid, bind_some, if_pos ⟨hid.symm, (hw.magic k).2 hk, hu⟩, hlist]

section

variable (hl : ∀ e ∈ l, s.Plain e)
include hl

theorem path_of_reaches (hw : s.Wf) (hold : s.AllPlain) (hj : j ∈ s.jobList) (hu : s.Unfinished j)
    (h : s.Reaches (s.job j).jobId l) : ∃ k, s.Waits l k ∧ ReflTransGen s.Edge k j := by
  induction h with
  | @here e l he h0 hid =>
    exact ⟨j, ⟨⟨e, he, ((hl e he).names_iff hw hj).2 hid.symm⟩, hu⟩, .refl⟩
  | @there e l l' he h0 hnext _ ih =>
    obtain ⟨d, -, hid, hm, hud, rfl⟩ := next_eq_some hnext
    have hd : d ∈ s.jobList := (hw.magic d).1 hm
    obtain ⟨k, hk, hpath⟩ := ih (hold d hd hud)
    exact ⟨d, ⟨⟨e, he, ((hl e he).names_iff hw hd).2 hid.symm⟩, hud⟩, .head ⟨hd, hud, hk⟩ hpath⟩

theorem reaches_of_path (hw : s.Wf) (hold : s.AllPlain)
    (hpath : ReflTransGen s.Edge k j) (hk : s.Waits l k) : s.Reaches (s.job j).jobId l := by
  induction hpath using ReflTransGen.head_induction_on generalizing l with
  | refl =>
    obtain ⟨⟨e, he, hn⟩, -⟩ := hk
    have hid := ((hl e he).names_iff hw hn.2.1).1 hn
    exact .here he (hid ▸ hw.nonzero j hn.2.1) hid.symm
  | @head k m hedge _ ih =>
    obtain ⟨⟨e, he, hn⟩, hu⟩ := hk
    have hkl := hn.2.1
    have hid := ((hl e he).names_iff hw hkl).1 hn
    obtain ⟨-, -, hm⟩ := hedge
    have hne : s.entries k ≠ [] := by
      obtain ⟨⟨e', he', -⟩, -⟩ := hm
      exact ne_nil_of_mem he'
    exact .there he (hid ▸ hw.nonzero k hkl) (next_of_names hw (hl e he) hkl hid hu hne)
      (ih (hold k hkl hu) hm)

/-- **The scan finds the job exactly when the new edges would close a circle.** -/
theorem scan_iff_circle (hw : s.Wf) (hold : s.AllPlain) (hacyc : Acyclic s.Edge)
    (hj : j ∈ s.jobList) (hu : s.Unfinished j)
    (hlimit : (scanDepend s max (s.job j).jobId (max + 1) 0 l).2 ≤ max) :
    (scanDepend s max (s.job j).jobId (max + 1) 0 l).1 = true ↔
      ∃ x, TransGen (AddEdges s.Edge j (s.Waits l)) x x := by
  rw [scan_iff hlimit, circle_iff hacyc]
  constructor
  · intro h
    exact path_of_reaches hl hw hold hj hu h
  · rintro ⟨k, hk, hpath⟩
    exact reaches_of_path hl hw hold hpath hk

end

/-! ## The call -/

theorem edge_setJob {r : JobRecord} (hstate : r.jobState = (s.job j).jobState)
    (hid : r.jobId = (s.job j).jobId) (harray : r.arrayJobId = (s.job j).arrayJobId) {m : Nat}
    (h : (s.setJob j r).Edge k m) :
    s.Edge k m ∧ k ≠ j ∨ k = j ∧ s.Waits ((r.details.bind (·.dependList)).getD []) m := by
  have hsame : ∀ i, ((s.setJob j r).job i).jobState = (s.job i).jobState ∧
      ((s.setJob j r).job i).jobId = (s.job i).jobId ∧
      ((s.setJob j r).job i).arrayJobId = (s.job i).arrayJobId := by
    intro i
    by_cases hi : i = j
    · subst hi
      rw [Jobs.setJob_job]
      exact ⟨hstate, hid, harray⟩
    · rw [Jobs.setJob_job_of_ne _ _ hi]
      exact ⟨rfl, rfl, rfl⟩
  have hwaits : ∀ l, (s.setJob j r).Waits l m → s.Waits l m := by
    rintro l ⟨⟨e, he, hn⟩, hu⟩
    obtain ⟨hs, hi, ha⟩ := hsame m
    refine ⟨⟨e, he, ?_⟩, ?_⟩
    · rw [Jobs.Names, hi, ha] at hn
      exact hn
    · rw [Jobs.Unfinished, hs] at hu
      exact hu
  obtain ⟨hk, hu, hm⟩ := h
  have hm := hwaits _ hm
  by_cases hkj : k = j
  · subst hkj
    refine .inr ⟨rfl, ?_⟩
    rwa [Jobs.entries, Jobs.setJob_job] at hm
  · refine .inl ⟨⟨hk, ?_, ?_⟩, hkj⟩
    · rwa [Jobs.Unfinished, (hsame k).1] at hu
    · rwa [Jobs.entries, Jobs.setJob_job_of_ne _ _ hkj] at hm

def newEntries (s : Jobs) (j : Nat) (expandAllow : Bool) (newDepend : Option Text) : List DependSpec :=
  if clears newDepend then [] else (parseDepend s j expandAllow (newDepend.getD [])).1.list

def pendingJob (jobId arrayJobId arrayTaskId : Nat) (l : List DependSpec) : JobRecord where
  magic := true
  jobId := jobId
  arrayJobId := arrayJobId
  arrayTaskId := arrayTaskId
  jobState := .pending
  userId := 1000
  name := none
  qosId := 0
  partPtr := some 0
  gres := none
  endTime := 0
  timeLimit := 60
  details := some { dependency := none, dependList := some l, expandingJobid := 0, shared := 0 }

/-- The jobs with the numbers below `n` are in the list. -/
def jobsBelow (n : Nat) (job : Nat → JobRecord) : Jobs where
  jobList := List.range n
  job := fun k => { job k with magic := decide (k < n) }

def chain : Jobs := jobsBelow 3 fun
  | 0 => pendingJob 10 0 noVal16 []
  | 1 => pendingJob 11 0 noVal16 [⟨noVal16, .afterOk, 10, some 0⟩]
  | k => pendingJob (k + 10) 0 noVal16 [⟨noVal16, .after, 11, some 1⟩]

theorem acyclic_edge_of_rank (r : Nat → Nat) (h : ∀ k ∈ s.jobList, ∀ m ∈ s.jobList,
    (∃ e ∈ s.entries k, s.Names e m) → r k < r m) : Acyclic s.Edge := by
  refine acyclic_of_rank r fun k m hedge => ?_
  obtain ⟨hk, -, ⟨e, he, hn⟩, -⟩ := hedge
  exact h k hk m hn.2.1 ⟨e, he, hn⟩

/-- Jobs 100 and 101 are the tasks 0 and 1 of the array 100, and job 101 waits for job 200. -/
def arrayPair : Jobs := jobsBelow 3 fun
  | 0 => pendingJob 100 100 0 []
  | 1 => pendingJob 101 100 1 [⟨noVal16, .afterOk, 200, some 2⟩]
  | _ => pendingJob 200 0 noVal16 []

end Slurmpp.Depend
