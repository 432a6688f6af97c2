/-
  The gang scheduler: partitions, their jobs, and the shadows of higher partitions.

  A job that runs casts its SHADOW on every partition of lower priority (`_cast_shadow`): there it is put into the
  active row before any of the partition's own jobs.  Three operations move jobs, and all of them rebuild rows:

  * `gs_job_start`, `gs_job_fini`  — `_update_all_active_rows` rebuilds the row of every partition, highest priority
                                     first, keeping who runs and filling up with who waits;
  * a pass of `_timeslicer_thread` — `_cycle_job_list` on every partition that is not served in full.

  `gs_job` records are reached through POINTERS, so the state has a heap of them (`job`), and a partition is a pointer
  `ι` too.  A signal is noted in `signals` and taken to have its effect at once, which is what `sig_state` records.
-/
import Slurmpp.Lib.Machine
import Slurmpp.Gang.Row

namespace Slurmpp.Gang

/-! ## State -/

structure GsJob where
  jobPtr : JobRecord
  sigState : SigState
  rowState : RowState
deriving DecidableEq

/-- What is sent to a job: by `_suspend_job`, by `_resume_job`, or by way of `preempt_job_list`. -/
inductive Signal
  | suspend (jobId : Nat)
  | resume (jobId : Nat)
  | preempt (jobId : Nat)
deriving DecidableEq, Repr

/-- `gs_part_list`, the partitions, the heap of `gs_job` records with its first free address, and the
    signals that have been sent. -/
structure Gs (ι : Type*) where
  partList : List ι
  part : ι → GsPart
  job : Nat → GsJob
  next : Nat
  signals : List Signal

namespace Gs

variable {ι : Type*}

def setJob (g : Gs ι) (j : Nat) (a : GsJob) : Gs ι := { g with job := Function.update g.job j a }

def signal (g : Gs ι) (s : Signal) : Gs ι := { g with signals := g.signals ++ [s] }

def resrcs (g : Gs ι) (j : Nat) : JobResources := (g.job j).jobPtr.jobResrcs

def setRow (g : Gs ι) (j : Nat) (row : RowState) : Gs ι :=
  g.setJob j { g.job j with rowState := row }

def setSig (g : Gs ι) (j : Nat) (sig : SigState) : Gs ι :=
  g.setJob j { g.job j with sigState := sig }

/-! ## Shadows -/

variable [DecidableEq ι]

def setPart (g : Gs ι) (p : ι) (q : GsPart) : Gs ι :=
  { g with part := Function.update g.part p q }

def castShadow (g : Gs ι) (j priority : Nat) : Gs ι :=
  { g with part := fun p =>
      if p ∈ g.partList ∧ (g.part p).priority < priority ∧ j ∉ (g.part p).shadow then
        { g.part p with shadow := (g.part p).shadow ++ [j] }
      else g.part p }

def clearShadow (g : Gs ι) (j : Nat) : Gs ι :=
  { g with part := fun p =>
      if p ∈ g.partList then { g.part p with shadow := (g.part p).shadow.erase j }
      else g.part p }

/-! ## Building a row -/

variable (P : Phys)

/-- `_add_job_to_active` through pointers. -/
def putInRow (g : Gs ι) (p : ι) (j : Nat) : Gs ι :=
  g.setPart p (addJobToActive P (g.resrcs j) (g.part p))

/-- `_job_fits_in_active_row` through pointers. -/
def fits (g : Gs ι) (p : ι) (j : Nat) : Bool := jobFitsInActiveRow P (g.resrcs j) (g.part p)

/-- A job is suspended; under shadows one that cannot be suspended is preempted. -/
def suspendJob (g : Gs ι) (p : ι) (j : Nat) : Gs ι :=
  (g.signal (if (g.part p).shadow ≠ [] ∧ (g.job j).jobPtr.preemptMode ≠ .suspend then
    .preempt (g.job j).jobPtr.jobId else .suspend (g.job j).jobPtr.jobId)).setSig j .suspend

def resumeJob (g : Gs ι) (j : Nat) : Gs ι :=
  (g.signal (.resume (g.job j).jobPtr.jobId)).setSig j .resume

/-- The loops of `_update_active_row` over the jobs of row state `row` that are to be kept. -/
def keepInRow (row : RowState) (p : ι) (g : Gs ι) (j : Nat) : Gs ι :=
  if (g.job j).rowState ≠ row then g
  else if g.fits P p j then (g.putInRow P p j).castShadow j (g.part p).priority
  else
    let g := if (g.job j).sigState ≠ .suspend then (g.suspendJob p j).clearShadow j else g
    g.setRow j .noActive

def fillRow (p : ι) (g : Gs ι) (j : Nat) : Gs ι :=
  if (g.job j).rowState ≠ .noActive then g
  else if g.fits P p j then
    let g := ((g.putInRow P p j).castShadow j (g.part p).priority).setRow j .filler
    if (g.job j).sigState = .suspend then g.resumeJob j else g
  else g

/-- An empty row with all shadows put in. -/
def applyShadows (g : Gs ι) (p : ι) : Gs ι :=
  (g.part p).shadow.foldl (fun g j => g.putInRow P p j)
    (g.setPart p { g.part p with jobsActive := 0 })

def updateActiveRow (addNewJobs : Bool) (g : Gs ι) (p : ι) : Gs ι :=
  let jobs := (g.part p).jobList
  let g := g.applyShadows P p
  let g := jobs.foldl (keepInRow P .active p) g
  let g := jobs.foldl (keepInRow P .filler p) g
  if addNewJobs then jobs.foldl (fillRow P p) g else g

/-! ## All partitions -/

/-- `list_sort` puts a partition before the first one of lower priority. -/
def insertPart (priority : ι → Nat) (p : ι) (l : List ι) : List ι :=
  l.takeWhile (fun q => decide (priority p ≤ priority q)) ++
    p :: l.dropWhile fun q => decide (priority p ≤ priority q)

/-- `list_sort (gs_part_list, _sort_partitions)`. -/
def sortPartitions (g : Gs ι) : Gs ι :=
  { g with partList := g.partList.foldl (fun l p => insertPart (fun q => (g.part q).priority) p l) [] }

def updateAllActiveRows (g : Gs ι) : Gs ι :=
  let g := g.sortPartitions
  g.partList.foldl (updateActiveRow P true) g

/-! ## Jobs come and go -/

def findJob (g : Gs ι) (p : ι) (jobId : Nat) : Option Nat :=
  (g.part p).jobList.find? fun j => decide ((g.job j).jobPtr.jobId = jobId)

def removeJobFromPart (jobId : Nat) (p : ι) (fini : Bool) (g : Gs ι) : Gs ι :=
  if jobId = 0 then g
  else
    match g.findJob p jobId with
    | none => g
    | some j =>
      let g := g.clearShadow j
      let g := g.setPart p { g.part p with jobList := (g.part p).jobList.erase j }
      if fini = false ∧ (g.job j).sigState = .suspend then
        g.signal (.resume (g.job j).jobPtr.jobId)
      else g

/-- A job that is tracked already is taken out first. -/
def dropDuplicate (p : ι) (jobPtr : JobRecord) (g : Gs ι) : Gs ι :=
  if (g.findJob p jobPtr.jobId).isSome then
    updateActiveRow P false (g.removeJobFromPart jobPtr.jobId p false) p
  else g

def appendJob (p : ι) (jobPtr : JobRecord) (g : Gs ι) : Gs ι :=
  { g.setPart p { g.part p with jobList := (g.part p).jobList ++ [g.next] } with
    job := Function.update g.job g.next ⟨jobPtr, .resume, .noActive⟩, next := g.next + 1 }

/-- `_add_job_to_part`, with the address of the new `gs_job`. -/
def addJobToPart (p : ι) (jobPtr : JobRecord) (g : Gs ι) : Gs ι × Nat :=
  let g := g.dropDuplicate P p jobPtr
  let j := g.next
  let g := g.appendJob p jobPtr
  if g.fits P p j then
    (((g.putInRow P p j).setRow j .filler).castShadow j (g.part p).priority, j)
  else (g.suspendJob p j, j)

def findPart (g : Gs ι) (name : Text) : Option ι :=
  g.partList.find? fun p => decide ((g.part p).partName = name)

def gsJobStart (g : Gs ι) (jobPtr : JobRecord) : Gs ι :=
  match g.findPart jobPtr.partition with
  | none => g
  | some p =>
    let (g, j) := g.addJobToPart P p jobPtr
    if (g.job j).sigState = .resume then g.updateAllActiveRows P else g

def gsJobFini (g : Gs ι) (jobPtr : JobRecord) : Gs ι :=
  match g.findPart jobPtr.partition with
  | none => g
  | some p => (g.removeJobFromPart jobPtr.jobId p true).updateAllActiveRows P

/-! ## Turns -/

/-- The inner loop of `_cycle_job_list`: as long as the first of the `rest` is active it goes to the
    back and is active no more. -/
def toBack : Nat → (Nat → GsJob) → List Nat → (Nat → GsJob) × List Nat
  | 0, job, rest => (job, rest)
  | _, job, [] => (job, [])
  | fuel + 1, job, j :: rest =>
    if (job j).rowState = .active then
      toBack fuel (Function.update job j { job j with rowState := .noActive }) (rest ++ [j])
    else (job, j :: rest)

/-- The outer loop, with the number of places still to be looked at; no job is moved more often than
    there are jobs. -/
def reprioritize : Nat → (Nat → GsJob) → List Nat → (Nat → GsJob) × List Nat
  | 0, job, rest => (job, rest)
  | n + 1, job, rest =>
    match toBack rest.length job rest with
    | (job, []) => (job, [])
    | (job, j :: rest) =>
      let job := if (job j).rowState = .filler then
        Function.update job j { job j with rowState := .noActive } else job
      let (job, rest) := reprioritize n job rest
      (job, j :: rest)

/-- A job of `_build_active_row`. -/
def activate (p : ι) (g : Gs ι) (j : Nat) : Gs ι :=
  if g.fits P p j then (g.putInRow P p j).setRow j .active else g

def buildActiveRow (g : Gs ι) (p : ι) : Gs ι :=
  if (g.part p).jobList = [] then g.setPart p { g.part p with jobsActive := 0 }
  else (g.part p).jobList.foldl (activate P p) (g.applyShadows P p)

/-- A job whose turn is over. -/
def stopJob (p : ι) (g : Gs ι) (j : Nat) : Gs ι :=
  if (g.job j).rowState = .noActive ∧ (g.job j).sigState = .resume then
    (g.suspendJob p j).clearShadow j
  else g

/-- A job whose turn it is. -/
def wakeJob (p : ι) (g : Gs ι) (j : Nat) : Gs ι :=
  if (g.job j).rowState = .active ∧ (g.job j).sigState = .suspend then
    (g.resumeJob j).castShadow j (g.part p).priority
  else g

/-- The rows of `_cycle_job_list`, before any job is signalled. -/
def cycleRows (g : Gs ι) (p : ι) : Gs ι :=
  let jobs := (g.part p).jobList
  let (job, jobs) := reprioritize jobs.length g.job jobs
  let g := ({ g with job := job }.setPart p { g.part p with jobList := jobs })
  g.buildActiveRow P p

def cycleJobList (g : Gs ι) (p : ι) : Gs ι :=
  let g := g.cycleRows P p
  let g := (g.part p).jobList.foldl (stopJob p) g
  (g.part p).jobList.foldl (wakeJob p) g

/-- A partition in the loop of `_timeslicer_thread`. -/
def slice (g : Gs ι) (p : ι) : Gs ι :=
  if (g.part p).jobsActive < (g.part p).jobList.length + (g.part p).shadow.length then
    g.cycleJobList P p
  else g

/-- A pass of `_timeslicer_thread`. -/
def timeslice (g : Gs ι) : Gs ι :=
  let g := g.sortPartitions
  g.partList.foldl (slice P) g

end Gs

/-! ## Runs -/

inductive Event
  | jobStart (jobPtr : JobRecord)
  | jobFini (jobPtr : JobRecord)
  | timeslice
deriving DecidableEq

/-- The gang scheduler; every event can happen in every state. -/
def scheduler {ι : Type*} [DecidableEq ι] (P : Phys) : Machine (Gs ι) Event where
  step g
    | .jobStart jobPtr => some (g.gsJobStart P jobPtr)
    | .jobFini jobPtr => some (g.gsJobFini P jobPtr)
    | .timeslice => some (g.timeslice P)

end Slurmpp.Gang
