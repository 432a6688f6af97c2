/-
  The whole of a controller's work: its main loop, the threads that launch jobs, and the messages that complete them.

  * `main`                     — takes the first line of the workload when a slot is free, starts a thread for it
                                 and only THEN counts the thread;
  * `_job_proc`, `drun_proc`   — split the line, allocate, write the job's entries, launch, free the slot, and ask
                                 whether the completion will come back here (`check_job_belong`);
  * `_step_complete_msg_proc`  — looks the record up again, releases it, and counts the job or leaves word.

  A job `j` has one launch thread `(j, none)` and one handler `(j, some d)` for every completion message.  A turn
  makes a `Plan`: at most ONE move of the allocator, and what becomes of slips and offices.  So every run of `system`
  is, seen from the store and the ledger, a run of `allocator`.  `fins` is no part of the program.
-/
import Slurmpp.Controller.JobInfo
import Slurmpp.Controller.Trail

namespace Slurmpp.Controller

open Option Function

open Text (words)

/-! ## State -/

inductive Launch
  /-- the line is still in the queue. -/
  | queued
  /-- `_job_proc` has been started. -/
  | begun
  /-- in `allocate_res`, or just back from it. -/
  | alloc
  /-- `insert_jobinfo_zht` with the inserts still to make. -/
  | insert (todo : List (Text × Text))
  /-- the step is being launched; the slot is still taken. -/
  | launching
  /-- `check_job_belong` before its lookup. -/
  | check
  /-- `check_job_belong` waits for "Finished". -/
  | waiting
  /-- the counters are about to be compared. -/
  | guard
  /-- `num_job_fin` is about to be increased. -/
  | count
  | ended
  /-- left through `_job_proc` without launching. -/
  | exited
  /-- left through `_create_srun_job`: too many nodes. -/
  | failed
  | fault (f : Fault)
deriving DecidableEq, Repr

inductive Handler
  /-- the message has not come. -/
  | awaited
  /-- before the lookup of the origin. -/
  | origin
  /-- in `_create_job_resource`. -/
  | build (originCtrlid : Text) (b : Build)
  /-- in `release_res`. -/
  | release (originCtrlid : Text)
  /-- about to count the job, or to leave word. -/
  | fin (originCtrlid : Text)
  | done
  | fault (f : Fault)
deriving DecidableEq, Repr

/-- The threads of one job, and how often which controller has counted it. -/
structure Slip (δ : Type*) where
  launch : Launch
  handler : δ → Handler
  fins : Text → Nat

/-- What a controller keeps: its queue, its counters, and whether `main` has started a thread that
    it has not counted yet. -/
structure Office (κ : Type*) where
  queue : List κ
  starting : Bool
  numJobFin : Nat
  numJobFail : Nat
  numProcThread : Int

/-- The cluster, the jobs with their controllers, lines and ids, the completion messages' targets,
    and the workloads. -/
structure Setup (κ δ : Type*) where
  cluster : Cluster
  maxProcThread : Nat
  workload : Text → List κ
  origin : κ → Text
  line : κ → Text
  minNodes : κ → Nat
  jobId : κ → Nat
  /-- the controller to which message `d` of a job is sent. -/
  ctrl : κ → δ → Text

structure System (κ δ : Type*) where
  world : World (κ × Option δ) κ
  slip : κ → Slip δ
  office : Text → Office κ

inductive Turn (κ δ : Type*)
  /-- the main loop of controller `c`. -/
  | main (c : Text)
  /-- the launch thread of a job; `rand` is what `rand()` returns if it is called. -/
  | thread (j : κ) (rand : Nat)
  /-- a completion message arrives. -/
  | deliver (j : κ) (d : δ)
  /-- its handler goes on. -/
  | handle (j : κ) (d : δ)

/-- What a turn does: a move of the allocator if any, and the new slips and offices. -/
structure Plan (κ δ : Type*) where
  core : Option (Label (κ × Option δ))
  slip : κ → Slip δ
  office : Text → Office κ

section

variable {κ δ : Type*} [DecidableEq κ]

def System.launchTo (s : System κ δ) (j : κ) (pc : Launch) : κ → Slip δ :=
  update s.slip j { s.slip j with launch := pc }

def System.handlerTo [DecidableEq δ] (s : System κ δ) (j : κ) (d : δ) (pc : Handler) : κ → Slip δ :=
  update s.slip j
    { s.slip j with handler := update (s.slip j).handler d pc }

end

/-! ## The code -/

/-- The first word of a line that launches a job. -/
def srunText : Text := "srun".toList

/-- What is appended for the word to the origin. -/
def finText : Text := "Fin".toList

def finishedText : Text := "Finished".toList

namespace Setup

variable {κ δ : Type*} (S : Setup κ δ)

/-- The allocator's threads: launch threads and handlers. -/
def conf : Conf (κ × Option δ) κ where
  cluster := S.cluster
  selfId p := p.2.elim (S.origin p.1) (S.ctrl p.1)
  need p := S.minNodes p.1
  owner := Prod.fst

def numJob (c : Text) : Nat := (S.workload c).length

/-- The key under which the origin finds "I am here". -/
def hereKey (j : κ) : Text := jobKey (S.jobId j) (S.origin j)

/-- The key under which the origin finds "Finished". -/
def finKey (j : κ) : Text := jobKey (S.jobId j) (S.origin j ++ finText)

variable [DecidableEq κ]

/-- The loop of `main` on controller `c`. -/
def main (s : System κ δ) (c : Text) : Option (Plan κ δ) :=
  let k := s.office c
  if k.starting then
    some ⟨none, s.slip, update s.office c
      { k with starting := false, numProcThread := k.numProcThread + 1 }⟩
  else
    match k.queue with
    | [] => none
    | j :: queue =>
      if k.numProcThread < S.maxProcThread then
        some ⟨none, s.launchTo j .begun, update s.office c { k with queue := queue, starting := true }⟩
      else none

/-- `_job_proc` and what it calls. -/
def thread (s : System κ δ) (j : κ) (rand : Nat) : Option (Plan κ δ) :=
  let a := s.slip j
  let self := S.origin j
  let k := s.office self
  match a.launch with
  | .begun =>
    match splitStr (S.line j) ' ' 10 with
    | none => some ⟨none, s.launchTo j (.fault .tokens), s.office⟩
    | some jobDesc =>
      if jobDesc.head? = some srunText then
        if S.cluster.partSize * S.cluster.numCtrl < S.minNodes j then
          some ⟨none, s.launchTo j .failed, update s.office self { k with numJobFail := k.numJobFail + 1 }⟩
        else some ⟨some (.start (j, none)), s.launchTo j .alloc, s.office⟩
      else some ⟨none, s.launchTo j .exited, s.office⟩
  | .alloc =>
    match s.world.proc (j, none) with
    | .holding r => some ⟨none, s.launchTo j (.insert (insertJobinfoZht self (S.jobId j) r)), s.office⟩
    | _ => some ⟨some (.act (j, none) rand), s.slip, s.office⟩
  | .insert [] => some ⟨none, s.launchTo j .launching, s.office⟩
  | .insert (kv :: todo) => some ⟨some (.insert kv.1 kv.2), s.launchTo j (.insert todo), s.office⟩
  | .launching =>
    some ⟨none, s.launchTo j .check, update s.office self { k with numProcThread := k.numProcThread - 1 }⟩
  | .check =>
    if s.world.store (S.hereKey j) = some hereText then some ⟨none, s.launchTo j .ended, s.office⟩
    else some ⟨none, s.launchTo j .waiting, s.office⟩
  | .waiting =>
    if s.world.store (S.finKey j) = some finishedText then some ⟨none, s.launchTo j .guard, s.office⟩
    else some ⟨none, s.slip, s.office⟩
  | .guard =>
    if k.numJobFin + k.numJobFail < S.numJob self then some ⟨none, s.launchTo j .count, s.office⟩
    else some ⟨none, s.launchTo j .ended, s.office⟩
  | .count =>
    some ⟨none, update s.slip j
        { a with launch := .ended, fins := update a.fins self (a.fins self + 1) },
      update s.office self { k with numJobFin := k.numJobFin + 1 }⟩
  | .queued | .ended | .exited | .failed | .fault _ => none

variable [DecidableEq δ]

def deliver (s : System κ δ) (j : κ) (d : δ) : Option (Plan κ δ) :=
  if (s.slip j).handler d = .awaited then
    some ⟨none, s.handlerTo j d .origin, s.office⟩
  else none

/-- `_step_complete_msg_proc` on the controller to which the message was sent. -/
def handle (s : System κ δ) (j : κ) (d : δ) : Option (Plan κ δ) :=
  let a := s.slip j
  let self := S.ctrl j d
  let k := s.office self
  let st := s.world.store
  match a.handler d with
  | .origin => some ⟨none, s.handlerTo j d (.build ((st (jobKey (S.jobId j) [])).getD []) .ctrls), s.office⟩
  | .build origin (.done r) =>
    some ⟨some (.complete (j, some d) r), s.handlerTo j d (.release origin), s.office⟩
  | .build _ (.fault f) => some ⟨none, s.handlerTo j d (.fault f), s.office⟩
  | .build origin b =>
    (S.cluster.createJobResource (jobKey (S.jobId j) origin) st b).map fun b' =>
      ⟨none, s.handlerTo j d (.build origin b'), s.office⟩
  | .release origin =>
    match s.world.proc (j, some d) with
    | .released => some ⟨none, s.handlerTo j d (.fin origin), s.office⟩
    | _ => some ⟨some (.act (j, some d) 0), s.slip, s.office⟩
  | .fin origin =>
    if self = origin then
      some ⟨none, update s.slip j
          ⟨a.launch, update a.handler d .done,
            update a.fins self (a.fins self + 1)⟩,
        update s.office self { k with numJobFin := k.numJobFin + 1 }⟩
    else
      some ⟨some (.insert (jobKey (S.jobId j) (origin ++ finText)) finishedText), s.handlerTo j d .done, s.office⟩
  | .awaited | .done | .fault _ => none

def plan (s : System κ δ) : Turn κ δ → Option (Plan κ δ)
  | .main c => S.main s c
  | .thread j rand => S.thread s j rand
  | .deliver j d => deliver s j d
  | .handle j d => S.handle s j d

end Setup

/-- Carries a plan out; `none` when the allocator's move is not possible. -/
def Plan.carryOut {κ δ : Type*} [DecidableEq κ] [DecidableEq δ] (P : Plan κ δ) (S : Setup κ δ)
    (w : World (κ × Option δ) κ) : Option (System κ δ) :=
  match P.core with
  | none => some ⟨w, P.slip, P.office⟩
  | some l => ((allocator S.conf).step w l).map fun w' => ⟨w', P.slip, P.office⟩

def system {κ δ : Type*} [DecidableEq κ] [DecidableEq δ] (S : Setup κ δ) : Machine (System κ δ) (Turn κ δ) where
  step s a := (S.plan s a).bind fun P => P.carryOut S s.world

/-! ## What a turn can do -/

section Steps

variable {κ δ : Type*} [DecidableEq κ] [DecidableEq δ]

/-- The plans of a turn. -/
inductive Setup.Step (S : Setup κ δ) (s : System κ δ) : Turn κ δ → Plan κ δ → Prop
  | counted (c : Text) (h : (s.office c).starting = true) :
      Step S s (.main c) ⟨none, s.slip, update s.office c
        { s.office c with starting := false, numProcThread := (s.office c).numProcThread + 1 }⟩
  | popped (c : Text) (j : κ) (queue : List κ) (h : (s.office c).starting = false)
      (hq : (s.office c).queue = j :: queue) (hn : (s.office c).numProcThread < S.maxProcThread) :
      Step S s (.main c) ⟨none, s.launchTo j .begun, update s.office c
        { s.office c with queue := queue, starting := true }⟩
  | overrun (j : κ) (rand : Nat) (h : (s.slip j).launch = .begun)
      (hw : splitStr (S.line j) ' ' 10 = none) :
      Step S s (.thread j rand) ⟨none, s.launchTo j (.fault .tokens), s.office⟩
  | exited (j : κ) (rand : Nat) (h : (s.slip j).launch = .begun) (jobDesc : List Text)
      (hw : splitStr (S.line j) ' ' 10 = some jobDesc) (hr : jobDesc.head? ≠ some srunText) :
      Step S s (.thread j rand) ⟨none, s.launchTo j .exited, s.office⟩
  | failed (j : κ) (rand : Nat) (h : (s.slip j).launch = .begun) (jobDesc : List Text)
      (hw : splitStr (S.line j) ' ' 10 = some jobDesc) (hr : jobDesc.head? = some srunText)
      (hn : S.cluster.partSize * S.cluster.numCtrl < S.minNodes j) :
      Step S s (.thread j rand) ⟨none, s.launchTo j .failed, update s.office (S.origin j)
        { s.office (S.origin j) with numJobFail := (s.office (S.origin j)).numJobFail + 1 }⟩
  | start (j : κ) (rand : Nat) (h : (s.slip j).launch = .begun) (jobDesc : List Text)
      (hw : splitStr (S.line j) ' ' 10 = some jobDesc) (hr : jobDesc.head? = some srunText)
      (hn : ¬S.cluster.partSize * S.cluster.numCtrl < S.minNodes j) :
      Step S s (.thread j rand) ⟨some (.start (j, none)), s.launchTo j .alloc, s.office⟩
  | act (j : κ) (rand : Nat) (h : (s.slip j).launch = .alloc)
      (hp : ∀ r, s.world.proc (j, none) ≠ .holding r) :
      Step S s (.thread j rand) ⟨some (.act (j, none) rand), s.slip, s.office⟩
  | returned (j : κ) (rand : Nat) (r : JobResource) (h : (s.slip j).launch = .alloc)
      (hp : s.world.proc (j, none) = .holding r) :
      Step S s (.thread j rand)
        ⟨none, s.launchTo j (.insert (insertJobinfoZht (S.origin j) (S.jobId j) r)), s.office⟩
  | insert (j : κ) (rand : Nat) (kv : Text × Text) (todo : List (Text × Text))
      (h : (s.slip j).launch = .insert (kv :: todo)) :
      Step S s (.thread j rand) ⟨some (.insert kv.1 kv.2), s.launchTo j (.insert todo), s.office⟩
  | inserted (j : κ) (rand : Nat) (h : (s.slip j).launch = .insert []) :
      Step S s (.thread j rand) ⟨none, s.launchTo j .launching, s.office⟩
  | launched (j : κ) (rand : Nat) (h : (s.slip j).launch = .launching) :
      Step S s (.thread j rand) ⟨none, s.launchTo j .check, update s.office (S.origin j)
        { s.office (S.origin j) with numProcThread := (s.office (S.origin j)).numProcThread - 1 }⟩
  | here (j : κ) (rand : Nat) (h : (s.slip j).launch = .check)
      (hv : s.world.store (S.hereKey j) = some hereText) :
      Step S s (.thread j rand) ⟨none, s.launchTo j .ended, s.office⟩
  | away (j : κ) (rand : Nat) (h : (s.slip j).launch = .check)
      (hv : s.world.store (S.hereKey j) ≠ some hereText) :
      Step S s (.thread j rand) ⟨none, s.launchTo j .waiting, s.office⟩
  | told (j : κ) (rand : Nat) (h : (s.slip j).launch = .waiting)
      (hv : s.world.store (S.finKey j) = some finishedText) :
      Step S s (.thread j rand) ⟨none, s.launchTo j .guard, s.office⟩
  | untold (j : κ) (rand : Nat) (h : (s.slip j).launch = .waiting)
      (hv : s.world.store (S.finKey j) ≠ some finishedText) :
      Step S s (.thread j rand) ⟨none, s.slip, s.office⟩
  | below (j : κ) (rand : Nat) (h : (s.slip j).launch = .guard)
      (hn : (s.office (S.origin j)).numJobFin + (s.office (S.origin j)).numJobFail <
        S.numJob (S.origin j)) :
      Step S s (.thread j rand) ⟨none, s.launchTo j .count, s.office⟩
  | above (j : κ) (rand : Nat) (h : (s.slip j).launch = .guard)
      (hn : ¬(s.office (S.origin j)).numJobFin + (s.office (S.origin j)).numJobFail <
        S.numJob (S.origin j)) :
      Step S s (.thread j rand) ⟨none, s.launchTo j .ended, s.office⟩
  | count (j : κ) (rand : Nat) (h : (s.slip j).launch = .count) :
      Step S s (.thread j rand) ⟨none, update s.slip j
          ⟨.ended, (s.slip j).handler, update (s.slip j).fins (S.origin j)
            ((s.slip j).fins (S.origin j) + 1)⟩,
        update s.office (S.origin j)
          { s.office (S.origin j) with numJobFin := (s.office (S.origin j)).numJobFin + 1 }⟩
  | deliver (j : κ) (d : δ) (h : (s.slip j).handler d = .awaited) :
      Step S s (.deliver j d) ⟨none, s.handlerTo j d .origin, s.office⟩
  | origin (j : κ) (d : δ) (h : (s.slip j).handler d = .origin) :
      Step S s (.handle j d) ⟨none, s.handlerTo j d
        (.build ((s.world.store (jobKey (S.jobId j) [])).getD []) .ctrls), s.office⟩
  | read (j : κ) (d : δ) (origin : Text) (b b' : Build)
      (h : (s.slip j).handler d = .build origin b)
      (hb : S.cluster.createJobResource (jobKey (S.jobId j) origin) s.world.store b = some b') :
      Step S s (.handle j d) ⟨none, s.handlerTo j d (.build origin b'), s.office⟩
  | built (j : κ) (d : δ) (origin : Text) (r : JobResource)
      (h : (s.slip j).handler d = .build origin (.done r)) :
      Step S s (.handle j d)
        ⟨some (.complete (j, some d) r), s.handlerTo j d (.release origin), s.office⟩
  | broken (j : κ) (d : δ) (origin : Text) (f : Fault)
      (h : (s.slip j).handler d = .build origin (.fault f)) :
      Step S s (.handle j d) ⟨none, s.handlerTo j d (.fault f), s.office⟩
  | release (j : κ) (d : δ) (origin : Text) (h : (s.slip j).handler d = .release origin)
      (hp : s.world.proc (j, some d) ≠ .released) :
      Step S s (.handle j d) ⟨some (.act (j, some d) 0), s.slip, s.office⟩
  | released (j : κ) (d : δ) (origin : Text) (h : (s.slip j).handler d = .release origin)
      (hp : s.world.proc (j, some d) = .released) :
      Step S s (.handle j d) ⟨none, s.handlerTo j d (.fin origin), s.office⟩
  | fin (j : κ) (d : δ) (h : (s.slip j).handler d = .fin (S.ctrl j d)) :
      Step S s (.handle j d) ⟨none, update s.slip j
          ⟨(s.slip j).launch, update (s.slip j).handler d .done,
            update (s.slip j).fins (S.ctrl j d) ((s.slip j).fins (S.ctrl j d) + 1)⟩,
        update s.office (S.ctrl j d)
          { s.office (S.ctrl j d) with numJobFin := (s.office (S.ctrl j d)).numJobFin + 1 }⟩
  | leave (j : κ) (d : δ) (origin : Text) (h : (s.slip j).handler d = .fin origin)
      (ho : S.ctrl j d ≠ origin) :
      Step S s (.handle j d)
        ⟨some (.insert (jobKey (S.jobId j) (origin ++ finText)) finishedText), s.handlerTo j d .done, s.office⟩

variable {S : Setup κ δ} {s t : System κ δ} {P : Plan κ δ}

theorem Setup.main_step {c : Text} (h : S.main s c = some P) : S.Step s (.main c) P := by
  revert h
  fun_cases main <;> rintro ⟨⟩
  case case1 hs => exact .counted c hs
  case case3 hs j queue hq hn => exact .popped c j queue (by simpa using hs) hq hn

theorem Setup.thread_step {j : κ} {rand : Nat} (h : S.thread s j rand = some P) : S.Step s (.thread j rand) P := by
  revert h
  fun_cases thread <;> rintro ⟨⟩
  case case1 hl hw => exact .overrun j rand hl hw
  case case2 hl jobDesc hw hr hn => exact .failed j rand hl jobDesc hw hr hn
  case case3 hl jobDesc hw hr hn => exact .start j rand hl jobDesc hw hr hn
  case case4 hl jobDesc hw hr => exact .exited j rand hl jobDesc hw hr
  case case5 hl r hp => exact .returned j rand r hl hp
  case case6 hl hp => exact .act j rand hl hp
  case case7 hl => exact .inserted j rand hl
  case case8 kv todo hl => exact .insert j rand kv todo hl
  case case9 hl => exact .launched j rand hl
  case case10 hl hv => exact .here j rand hl hv
  case case11 hl hv => exact .away j rand hl hv
  case case12 hl hv => exact .told j rand hl hv
  case case13 hl hv => exact .untold j rand hl hv
  case case14 hl hn => exact .below j rand hl hn
  case case15 hl hn => exact .above j rand hl hn
  case case16 hl => exact .count j rand hl

theorem Setup.handle_step {j : κ} {d : δ} (h : S.handle s j d = some P) : S.Step s (.handle j d) P := by
  revert h
  fun_cases handle
  case case4 origin b _ _ hd =>
    intro h
    obtain ⟨b', hb, rfl⟩ := map_eq_some_iff.1 h
    exact .read j d origin b b' hd hb
  all_goals rintro ⟨⟩
  case case1 hd => exact .origin j d hd
  case case2 origin r hd => exact .built j d origin r hd
  case case3 origin f hd => exact .broken j d origin f hd
  case case5 origin hd hp => exact .released j d origin hd hp
  case case6 origin hd hp => exact .release j d origin hd hp
  case case7 hd => exact .fin j d hd
  case case8 origin hd ho => exact .leave j d origin hd ho

/-- **Every turn is one of those listed.** -/
theorem Setup.plan_step {a : Turn κ δ} (h : S.plan s a = some P) : S.Step s a P := by
  cases a with
  | main c => exact main_step h
  | thread j rand => exact thread_step h
  | handle j d => exact handle_step h
  | deliver j d =>
    simp only [plan, Setup.deliver, ite_none_right_eq_some, some.injEq] at h
    obtain ⟨hd, rfl⟩ := h
    exact .deliver j d hd

/-- The plan takes the world `w` to `w'`: by no move of the allocator, or by one. -/
def Plan.Carries (P : Plan κ δ) (S : Setup κ δ) (w w' : World (κ × Option δ) κ) : Prop :=
  P.core = none ∧ w' = w ∨ ∃ l, P.core = some l ∧ (allocator S.conf).step w l = some w'

variable {w w' : World (κ × Option δ) κ}

theorem Plan.Carries.still (h : P.Carries S w w') (hc : P.core = none) : w' = w := by
  rcases h with ⟨-, hw⟩ | ⟨l, hl, -⟩
  · exact hw
  · rw [hc] at hl
    cases hl

theorem Plan.Carries.move (h : P.Carries S w w')
    {l : Label (κ × Option δ)} (hc : P.core = some l) : (allocator S.conf).step w l = some w' := by
  rcases h with ⟨hl, -⟩ | ⟨l', hl, hs⟩
  · rw [hc] at hl
    cases hl
  · rw [hc] at hl
    cases hl
    exact hs

/-- **A turn makes at most one move of the allocator.** -/
theorem system_step {a : Turn κ δ} (h : (system S).step s a = some t) :
    ∃ P, S.Step s a P ∧ t.slip = P.slip ∧ t.office = P.office ∧ P.Carries S s.world t.world := by
  obtain ⟨P, hP, hc⟩ := bind_eq_some_iff.1 h
  refine ⟨P, Setup.plan_step hP, ?_⟩
  rw [Plan.carryOut] at hc
  cases hl : P.core with
  | none =>
    simp only [hl, some.injEq] at hc
    subst hc
    exact ⟨rfl, rfl, .inl ⟨hl, rfl⟩⟩
  | some l =>
    simp only [hl] at hc
    obtain ⟨w, hw, rfl⟩ := map_eq_some_iff.1 hc
    exact ⟨rfl, rfl, .inr ⟨l, hl, hw⟩⟩

end Steps

end Slurmpp.Controller
