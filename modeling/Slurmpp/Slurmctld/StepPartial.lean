/-
  Completion of a job step, node by node (`step_partial_comp` of `src/slurmctld/step_mgr.c`).  `aggregate` and `average`
  stand for the accounting.

  1. **Tracking** — as long as no range in order reaches beyond the nodes, the bits are the union of the valid ranges, the
     exit code is the largest return code of the valid messages, and a refused message leaves the step as it was
     (`Tracked`, `tracked_run`).
  2. **The slip** — the function makes the bits and takes over the return code BEFORE it compares the range with the
     nodes, so a message that is refused there has changed the step already (`refused_unchanged_iff`).
-/
import Slurmpp.Common.BitCount

namespace Slurmpp.StepPartial

open Bitstring List Option Function

variable {κ : Type}

/-! ## The model -/

inductive Esl
  | invalidJobId
  | jobPending
  | userIdMissing
  | einval
deriving DecidableEq

/-- `step_complete_msg_t` and the user who sends it. -/
structure CompleteMsg (κ : Type) where
  jobId : Nat
  jobStepId : Nat
  uid : Nat
  rangeFirst : Nat
  rangeLast : Nat
  stepRc : Nat
  jobacct : κ

/-- What is done with the accounting data. -/
structure Accounting (κ : Type) where
  aggregate : κ → κ → κ
  average : κ → Nat → κ

structure StepRecord (κ : Type) where
  stepNodeBitmap : Bitstr
  exitNodeBitmap : Option Bitstr
  exitCode : Nat
  batchStep : Bool
  cpuCount : Nat
  jobacct : κ
  switchJob : Bool

structure JobRecord (κ : Type) where
  pending : Bool
  userId : Nat
  steps : Nat → Option (StepRecord κ)

/-- The jobs, and the users `validate_slurm_user` lets pass. -/
structure Ctld (κ : Type) where
  jobs : Nat → Option (JobRecord κ)
  slurmUser : Nat → Bool

/-- The bits of the nodes that have exited, made by the first message, and the exit code. -/
def openExit (s : StepRecord κ) (rc : Nat) : Option (Bitstr × StepRecord κ) :=
  match s.exitNodeBitmap with
  | none =>
    (bitSetCount s.stepNodeBitmap).bind fun nodes => (bitAlloc nodes).map fun b =>
      (b, { s with exitNodeBitmap := some b, exitCode := rc })
  | some b => some (b, { s with exitCode := max s.exitCode rc })

/-- The part of `step_partial_comp` that works on the step: the step afterwards and `rem` and `max_rc`, or
    the error; `none` when an assertion of the bit functions fails. -/
def stepComp (A : Accounting κ) (s : StepRecord κ) (req : CompleteMsg κ) :
    Option (StepRecord κ × Except Esl (Nat × Nat)) :=
  if s.batchStep then
    some ({ s with exitCode := req.stepRc, jobacct := A.aggregate s.jobacct req.jobacct }, .ok (0, req.stepRc))
  else if req.rangeLast < req.rangeFirst then some (s, .error .einval)
  else
    (openExit { s with jobacct := A.average (A.aggregate s.jobacct req.jobacct) s.cpuCount } req.stepRc).bind
      fun (b, s) =>
        if req.rangeFirst ≥ b.bits ∨ req.rangeLast ≥ b.bits ∨ req.rangeFirst > req.rangeLast then
          some (s, .error .einval)
        else
          (bitNset b req.rangeFirst req.rangeLast).bind fun b => (bitClearCount b).map fun rem =>
            ({ s with exitNodeBitmap := some b, switchJob := s.switchJob && rem != 0 }, .ok (rem, s.exitCode))

def Ctld.setStep (c : Ctld κ) (j k : Nat) (s : StepRecord κ) : Ctld κ :=
  let job' := (c.jobs j).map fun job => { job with steps := Function.update job.steps k (some s) }
  { c with jobs := Function.update c.jobs j job' }

def stepPartialComp (A : Accounting κ) (c : Ctld κ) (req : CompleteMsg κ) :
    Option (Ctld κ × Except Esl (Nat × Nat)) :=
  match c.jobs req.jobId with
  | none => some (c, .error .invalidJobId)
  | some job =>
    if job.pending then some (c, .error .jobPending)
    else if !c.slurmUser req.uid && req.uid != job.userId then some (c, .error .userIdMissing)
    else
      match job.steps req.jobStepId with
      | none => some (c, .error .invalidJobId)
      | some s => (stepComp A s req).map fun (s, r) => (c.setStep req.jobId req.jobStepId s, r)

/-- The controller, which gets one message after another. -/
def controller (A : Accounting κ) : Machine (Ctld κ) (CompleteMsg κ) where
  step c m := (stepPartialComp A c m).map Prod.fst

/-! ## What is to be tracked -/

/-- A range of the step's nodes. -/
def CompleteMsg.InRange (n : Nat) (m : CompleteMsg κ) : Prop := m.rangeFirst ≤ m.rangeLast ∧ m.rangeLast < n

instance (n : Nat) (m : CompleteMsg κ) : Decidable (m.InRange n) := inferInstanceAs (Decidable (_ ∧ _))

/-- The node of rank `i` is in one of the ranges. -/
def coveredBy (ms : List (CompleteMsg κ)) (i : Nat) : Bool :=
  ms.any fun m => m.rangeFirst ≤ i && i ≤ m.rangeLast

/-- The number of the `n` nodes that are in no range. -/
def remaining (n : Nat) (ms : List (CompleteMsg κ)) : Nat := n - (range n).countP (coveredBy ms)

def maxRc (ms : List (CompleteMsg κ)) : Nat := (ms.map CompleteMsg.stepRc).foldl max 0

variable {n i : Nat} {ms : List (CompleteMsg κ)} {m : CompleteMsg κ}

theorem coveredBy_concat : coveredBy (ms ++ [m]) i = (coveredBy ms i || (m.rangeFirst ≤ i && i ≤ m.rangeLast)) := by
  simp [coveredBy]

theorem maxRc_concat : maxRc (ms ++ [m]) = max (maxRc ms) m.stepRc := by
  simp [maxRc]

theorem remaining_eq_zero : remaining n ms = 0 ↔ ∀ i < n, coveredBy ms i = true := by
  have hle : (range n).countP (coveredBy ms) ≤ n := countP_le_length.trans_eq length_range
  have hall : (range n).countP (coveredBy ms) = n ↔ ∀ i < n, coveredBy ms i = true := by
    have hlen := countP_eq_length (p := coveredBy ms) (l := range n)
    rw [length_range] at hlen
    rw [hlen]
    simp
  rw [← hall, remaining]
  omega

/-- The step after the valid messages `ms`. -/
structure Tracked (n : Nat) (ms : List (CompleteMsg κ)) (s : StepRecord κ) : Prop where
  batch : s.batchStep = false
  nodes : bitSetCount s.stepNodeBitmap = some n
  fresh : ms = [] → s.exitNodeBitmap = none
  exited : ms ≠ [] → ∃ b, s.exitNodeBitmap = some b ∧ b.bits = n ∧ ∀ i < n, bitTest b i = coveredBy ms i
  code : ms ≠ [] → s.exitCode = maxRc ms

variable {A : Accounting κ} {s : StepRecord κ}

theorem Tracked.lt (h : Tracked n ms s) : n < 2 ^ 31 - 32 := by
  have hlarge := bits_lt_of_bitSetCount h.nodes
  have hcount := h.nodes
  rw [bitSetCount_eq hlarge] at hcount
  cases hcount
  exact (setBelow_le _ _).trans_lt hlarge

theorem Tracked.openExit (h : Tracked n ms s) (m : CompleteMsg κ) :
    ∃ b s', StepPartial.openExit s m.stepRc = some (b, s') ∧ b.bits = n ∧ (∀ i < n, bitTest b i = coveredBy ms i) ∧
      s'.exitNodeBitmap = some b ∧ s'.exitCode = maxRc (ms ++ [m]) ∧ s'.batchStep = false ∧
      s'.stepNodeBitmap = s.stepNodeBitmap := by
  by_cases hms : ms = []
  · have hlt := h.lt
    obtain ⟨b, hb⟩ : ∃ b, bitAlloc n = some b := ⟨_, dif_pos (by omega)⟩
    refine ⟨b, { s with exitNodeBitmap := some b, exitCode := m.stepRc }, ?_, ?_, ?_, rfl, ?_, h.batch, rfl⟩
    · rw [StepPartial.openExit, h.fresh hms, h.nodes]
      dsimp only [bind_some]
      rw [hb]
      rfl
    · exact bits_bitAlloc hb
    · intro i _
      rw [bitTest_bitAlloc hb, hms]
      rfl
    · rw [hms, maxRc]
      simp
  · obtain ⟨b, hb, hbits, htest⟩ := h.exited hms
    refine ⟨b, { s with exitCode := max s.exitCode m.stepRc }, ?_, hbits, htest, hb, ?_, h.batch, rfl⟩
    · rw [StepPartial.openExit, hb]
    · rw [maxRc_concat, ← h.code hms]

theorem bitClearCount_covered {b : Bitstr} (hlt : b.bits < 2 ^ 31 - 32) (hbits : b.bits = n)
    (htest : ∀ i < n, bitTest b i = coveredBy ms i) : bitClearCount b = some (remaining n ms) := by
  have hcount : setBelow b n = (range n).countP (coveredBy ms) :=
    countP_congr fun i hi => by rw [htest i (mem_range.1 hi)]
  rw [bitClearCount, bitSetCount_eq hlt, hbits, map_some, hcount, remaining]

/-- **A valid message** is merged into what there is. -/
theorem Tracked.valid (h : Tracked n ms s) (hm : m.InRange n) :
    ∃ s', stepComp A s m = some (s', .ok (remaining n (ms ++ [m]), maxRc (ms ++ [m]))) ∧
      Tracked n (ms ++ [m]) s' := by
  obtain ⟨horder, hlast⟩ := hm
  have hopen : Tracked n ms { s with jobacct := A.average (A.aggregate s.jobacct m.jobacct) s.cpuCount } :=
    ⟨h.batch, h.nodes, h.fresh, h.exited, h.code⟩
  obtain ⟨b, s1, hs1, hbits, htest, -, hcode, hbatch, hnodes⟩ := hopen.openExit m
  obtain ⟨b', hb', hfill⟩ := nfill_eq true (show m.rangeFirst < b.bits by omega)
    (show m.rangeLast < b.bits by omega)
  have htest' : ∀ i < n, bitTest b' i = coveredBy (ms ++ [m]) i := by
    intro i hi
    rw [hfill.test, coveredBy_concat, htest i hi]
    by_cases hin : m.rangeFirst ≤ i ∧ i ≤ m.rangeLast
    · rw [if_pos (by omega)]
      simp [hin]
    · rw [if_neg (by omega)]
      simp [hin]
  have hbits' := hfill.bits.trans hbits
  have hclear := bitClearCount_covered (hbits' ▸ h.lt) hbits' htest'
  refine ⟨{ s1 with exitNodeBitmap := some b', switchJob := s1.switchJob && remaining n (ms ++ [m]) != 0 }, ?_, ?_⟩
  · rw [stepComp, if_neg (by simp [h.batch]), if_neg (by omega), hs1, bind_some]
    dsimp only
    rw [if_neg (by omega), bitNset, hb', bind_some, hclear, hcode]
    rfl
  · refine ⟨hbatch, ?_, fun hnil => absurd hnil (by simp), fun _ => ⟨b', rfl, hbits', htest'⟩,
      fun _ => hcode⟩
    rw [hnodes]
    exact h.nodes

theorem Tracked.inverted (h : Tracked n ms s) (hm : m.rangeLast < m.rangeFirst) :
    stepComp A s m = some (s, .error .einval) := by
  rw [stepComp, if_neg (by simp [h.batch]), if_pos hm]

theorem Tracked.outside (h : Tracked n ms s) (horder : m.rangeFirst ≤ m.rangeLast)
    (hlast : n ≤ m.rangeLast) : ∃ s', stepComp A s m = some (s', .error .einval) ∧ s'.exitNodeBitmap ≠ none := by
  have hopen : Tracked n ms { s with jobacct := A.average (A.aggregate s.jobacct m.jobacct) s.cpuCount } :=
    ⟨h.batch, h.nodes, h.fresh, h.exited, h.code⟩
  obtain ⟨b, s1, hs1, hbits, -, hsome, -⟩ := hopen.openExit m
  refine ⟨s1, ?_, ?_⟩
  · rw [stepComp, if_neg (by simp [h.batch]), if_neg (by omega), hs1, bind_some]
    dsimp only
    rw [if_pos (by omega)]
  · rw [hsome]
    exact some_ne_none b

/-! ## Messages to a step -/

/-- The controller has step `k` of job `j`, which belongs to `owner` and is not pending. -/
structure Ctld.At (c : Ctld κ) (j k owner : Nat) (admin : Nat → Bool) (s : StepRecord κ) : Prop where
  users : c.slurmUser = admin
  job : ∃ job, c.jobs j = some job ∧ job.pending = false ∧ job.userId = owner ∧ job.steps k = some s

/-- The sender may complete the step. -/
def CompleteMsg.Allowed (owner : Nat) (admin : Nat → Bool) (m : CompleteMsg κ) : Prop :=
  admin m.uid = true ∨ m.uid = owner

instance (owner : Nat) (admin : Nat → Bool) (m : CompleteMsg κ) : Decidable (m.Allowed owner admin) :=
  inferInstanceAs (Decidable (_ ∨ _))

def CompleteMsg.Valid (n owner : Nat) (admin : Nat → Bool) (m : CompleteMsg κ) : Prop :=
  m.Allowed owner admin ∧ m.InRange n

instance (n owner : Nat) (admin : Nat → Bool) (m : CompleteMsg κ) : Decidable (m.Valid n owner admin) :=
  inferInstanceAs (Decidable (_ ∧ _))

/-- A range in order does not reach beyond the nodes. -/
def CompleteMsg.Bounded (n owner : Nat) (admin : Nat → Bool) (m : CompleteMsg κ) : Prop :=
  m.Allowed owner admin → m.rangeFirst ≤ m.rangeLast → m.rangeLast < n

variable {c : Ctld κ} {j k owner : Nat} {admin : Nat → Bool}

section

variable (h : c.At j k owner admin s)
include h

theorem stepPartialComp_allowed (hj : m.jobId = j)
    (hk : m.jobStepId = k) (hm : m.Allowed owner admin) :
    stepPartialComp A c m = (stepComp A s m).map fun (s, r) => (c.setStep j k s, r) := by
  obtain ⟨job, hjob, hpend, howner, hs⟩ := h.job
  have hpass : ¬(!c.slurmUser m.uid && m.uid != job.userId) = true := by
    rw [h.users, howner]
    rcases hm with hm | hm <;> simp [hm]
  rw [stepPartialComp, hj, hjob]
  dsimp only
  rw [if_neg (by simp [hpend]), if_neg hpass, hk, hs]

theorem stepPartialComp_denied (hj : m.jobId = j)
    (hm : ¬m.Allowed owner admin) : stepPartialComp A c m = some (c, .error .userIdMissing) := by
  obtain ⟨job, hjob, hpend, howner, -⟩ := h.job
  rw [CompleteMsg.Allowed, not_or] at hm
  have hstop : (!c.slurmUser m.uid && m.uid != job.userId) = true := by
    rw [h.users, howner]
    simp [hm]
  rw [stepPartialComp, hj, hjob]
  dsimp only
  rw [if_neg (by simp [hpend]), if_pos hstop]

theorem Ctld.At.setStep (s' : StepRecord κ) :
    (c.setStep j k s').At j k owner admin s' := by
  obtain ⟨job, hjob, hpend, howner, -⟩ := h.job
  refine ⟨h.users, { job with steps := update job.steps k (some s') }, ?_, hpend, howner, ?_⟩
  · simp [Ctld.setStep, hjob]
  · simp

theorem Ctld.At.setStep_self : c.setStep j k s = c := by
  obtain ⟨job, hjob, -, -, hs⟩ := h.job
  have hsteps : update job.steps k (some s) = job.steps := by
    rw [← hs, update_eq_self]
  rw [Ctld.setStep, hjob, map_some, hsteps, ← hjob, update_eq_self]

theorem Ctld.At.unique {s' : StepRecord κ} (h' : c.At j k owner admin s') : s = s' := by
  obtain ⟨job, hjob, -, -, hs⟩ := h.job
  obtain ⟨job', hjob', -, -, hs'⟩ := h'.job
  cases hjob.symm.trans hjob'
  exact some.inj (hs.symm.trans hs')

end

section

variable (hc : c.At j k owner admin s)
include hc

/-- **One message**, when the ranges keep to the nodes. -/
theorem tracked_step (hs : Tracked n ms s) (hj : m.jobId = j)
    (hk : m.jobStepId = k) (hbound : m.Bounded n owner admin) :
    ∃ c' s' r, stepPartialComp A c m = some (c', r) ∧ c'.At j k owner admin s' ∧
      (m.Valid n owner admin → Tracked n (ms ++ [m]) s' ∧
        r = .ok (remaining n (ms ++ [m]), maxRc (ms ++ [m]))) ∧
      (¬m.Valid n owner admin → c' = c ∧ s' = s ∧ ∃ e, r = .error e) := by
  by_cases hallow : m.Allowed owner admin
  · rw [stepPartialComp_allowed hc hj hk hallow]
    by_cases horder : m.rangeFirst ≤ m.rangeLast
    · have hin : m.InRange n := ⟨horder, hbound hallow horder⟩
      obtain ⟨s', hcomp, hs'⟩ := hs.valid hin
      rw [hcomp]
      exact ⟨_, s', _, rfl, hc.setStep s', fun _ => ⟨hs', rfl⟩, fun hno => absurd ⟨hallow, hin⟩ hno⟩
    · rw [hs.inverted (Nat.lt_of_not_le horder)]
      refine ⟨_, s, _, rfl, hc.setStep s, fun hv => absurd hv.2.1 horder, fun _ => ⟨hc.setStep_self, rfl, _, rfl⟩⟩
  · exact ⟨c, s, _, stepPartialComp_denied hc hj hallow, hc, fun hv => absurd hv.1 hallow,
      fun _ => ⟨rfl, rfl, _, rfl⟩⟩

theorem tracked_run {past : List (CompleteMsg κ)}
    (hs : Tracked n past s) (hms : ∀ m ∈ ms, m.jobId = j ∧ m.jobStepId = k ∧ m.Bounded n owner admin) :
    ∃ c' s', (controller A).run c ms = some c' ∧ c'.At j k owner admin s' ∧
      Tracked n (past ++ ms.filter (·.Valid n owner admin)) s' := by
  induction ms generalizing c s past with
  | nil => exact ⟨c, s, rfl, hc, by simpa using hs⟩
  | cons m ms ih =>
    obtain ⟨hj, hk, hbound⟩ := hms m mem_cons_self
    obtain ⟨c1, s1, r, hstep, hc1, hvalid, hno⟩ := tracked_step hc hs hj hk hbound
    have hmove : (controller A).step c m = some c1 := by
      show (stepPartialComp A c m).map Prod.fst = some c1
      rw [hstep]
      rfl
    rw [Machine.run, hmove, bind_some]
    have hrest := (forall_mem_cons.1 hms).2
    by_cases hv : m.Valid n owner admin
    · obtain ⟨c', s', hrun', hc', hs'⟩ := ih hc1 (hvalid hv).1 hrest
      refine ⟨c', s', hrun', hc', ?_⟩
      rw [filter_cons_of_pos (by simpa using hv)]
      simpa using hs'
    · obtain ⟨rfl, rfl, -⟩ := hno hv
      obtain ⟨c', s', hrun', hc', hs'⟩ := ih hc1 hs hrest
      refine ⟨c', s', hrun', hc', ?_⟩
      rwa [filter_cons_of_neg (by simpa using hv)]

theorem refused_unchanged_iff (hs : Tracked n [] s) (hj : m.jobId = j) (hk : m.jobStepId = k) :
    (∀ c' e, stepPartialComp A c m = some (c', .error e) → c' = c) ↔ m.Bounded n owner admin := by
  constructor
  · intro h hallow horder
    by_contra hlast
    obtain ⟨s', hcomp, hsome⟩ := hs.outside horder (Nat.le_of_not_lt hlast)
    have hsame := h (c.setStep j k s') .einval (by rw [stepPartialComp_allowed hc hj hk hallow, hcomp]; rfl)
    have hat := hc.setStep s'
    rw [hsame] at hat
    rw [← hc.unique hat] at hsome
    exact hsome (hs.fresh rfl)
  · intro hbound c' e hstep
    obtain ⟨c1, s1, r, hstep1, -, hvalid, hno⟩ := tracked_step hc hs hj hk hbound
    obtain ⟨rfl, rfl⟩ := Prod.mk.inj (some.inj (hstep1.symm.trans hstep))
    by_cases hv : m.Valid n owner admin
    · exact absurd (hvalid hv).2 (by simp)
    · exact (hno hv).1

end

/-- **Completion is tracked** as long as no range in order reaches beyond the nodes, and only then.
    Whatever messages a step without reports on `n` nodes has got, the next valid one is answered with the
    number of nodes that no valid range has covered, which is zero just when they are all covered, and with
    the largest return code of the valid messages, which is the step's exit code; one that is not valid is
    refused and changes nothing. -/
theorem partial_completion_tracked (A : Accounting κ) (hc : c.At j k owner admin s) (hbatch : s.batchStep = false)
    (hn : bitSetCount s.stepNodeBitmap = some n) (hfresh : s.exitNodeBitmap = none) :
    (∀ ms m, (∀ m' ∈ ms ++ [m], m'.jobId = j ∧ m'.jobStepId = k ∧ m'.Bounded n owner admin) →
      ∃ c₁ c₂ s₂ r, (controller A).run c ms = some c₁ ∧ stepPartialComp A c₁ m = some (c₂, r) ∧
        c₂.At j k owner admin s₂ ∧
        (m.Valid n owner admin →
          r = .ok (remaining n ((ms ++ [m]).filter (·.Valid n owner admin)), s₂.exitCode) ∧
          (remaining n ((ms ++ [m]).filter (·.Valid n owner admin)) = 0 ↔
            ∀ i < n, coveredBy ((ms ++ [m]).filter (·.Valid n owner admin)) i = true) ∧
          s₂.exitCode = maxRc ((ms ++ [m]).filter (·.Valid n owner admin))) ∧
        (¬m.Valid n owner admin → c₂ = c₁ ∧ ∃ e, r = .error e)) ∧
      ∀ m : CompleteMsg κ, m.jobId = j → m.jobStepId = k →
        ((∀ c' e, stepPartialComp A c m = some (c', .error e) → c' = c) ↔ m.Bounded n owner admin) := by
  have hs : Tracked n [] s := ⟨hbatch, hn, fun _ => hfresh, fun h => absurd rfl h, fun h => absurd rfl h⟩
  refine ⟨fun ms m hms => ?_, fun m hj hk => refused_unchanged_iff hc hs hj hk⟩
  obtain ⟨c₁, s₁, hrun, hc₁, hs₁⟩ := tracked_run hc hs fun m' hm' => hms m' (mem_append_left _ hm')
  obtain ⟨hj, hk, hbound⟩ := hms m (by simp)
  obtain ⟨c₂, s₂, r, hstep, hc₂, hvalid, hno⟩ := tracked_step hc₁ hs₁ hj hk hbound
  refine ⟨c₁, c₂, s₂, r, hrun, hstep, hc₂, fun hv => ?_, fun hv => ⟨(hno hv).1, (hno hv).2.2⟩⟩
  obtain ⟨hs₂, hr⟩ := hvalid hv
  have hfilter : (ms ++ [m]).filter (·.Valid n owner admin) = ms.filter (·.Valid n owner admin) ++ [m] := by
    rw [filter_append, filter_cons_of_pos (by simpa using hv), filter_nil]
  rw [hfilter]
  rw [nil_append] at hs₂ hr
  have hcode := hs₂.code (by simp)
  exact ⟨hcode ▸ hr, remaining_eq_zero, hcode⟩

/-- Nodes 0 and 1 of three are the step's. -/
def twoOfThree : Bitstr := oneWord 3 3#32

def twoNodes : Ctld Unit :=
  { jobs := fun j => if j = 7 then some
      { pending := false
        userId := 1000
        steps := fun k => if k = 0 then some ⟨twoOfThree, none, 0, false, 4, (), true⟩ else none } else none
    slurmUser := fun uid => uid == 0 }

/-- A report of ranks `first` to `last` for that step. -/
def report (first last rc : Nat) : CompleteMsg Unit := ⟨7, 0, 1000, first, last, rc, ()⟩

def noAccounting : Accounting Unit := ⟨fun _ _ => (), fun _ _ => ()⟩

theorem twoNodes_at : twoNodes.At 7 0 1000 (fun uid => uid == 0) ⟨twoOfThree, none, 0, false, 4, (), true⟩ :=
  ⟨rfl, _, rfl, rfl, rfl, rfl⟩

/-- The second node reports, one range comes in the wrong order, and the first node reports. -/
theorem partial_completion_tracked_two :
    ∃ c₁ c₂ s₂ r, (controller noAccounting).run twoNodes [report 1 1 4, report 1 0 9] = some c₁ ∧
      stepPartialComp noAccounting c₁ (report 0 0 2) = some (c₂, r) ∧
      c₂.At 7 0 1000 (fun uid => uid == 0) s₂ ∧ r = .ok (0, 4) := by
  obtain ⟨htrack, -⟩ := partial_completion_tracked noAccounting twoNodes_at rfl (n := 2) (by decide) rfl
  obtain ⟨c₁, c₂, s₂, r, hrun, hstep, hat, hvalid, -⟩ := htrack [report 1 1 4, report 1 0 9] (report 0 0 2) (by
    simp [report, CompleteMsg.Bounded])
  obtain ⟨hr, -, hcode⟩ := hvalid (by decide)
  refine ⟨c₁, c₂, s₂, r, hrun, hstep, hat, ?_⟩
  rw [hr, hcode]
  rfl

/-- Ranks 0 to 5 of a step on two nodes: the message is refused, and its return code is the step's exit
    code now. -/
theorem refused_message_kept :
    ∃ c s, stepPartialComp noAccounting twoNodes (report 0 5 9) = some (c, .error .einval) ∧
      c.At 7 0 1000 (fun uid => uid == 0) s ∧ s.exitCode = 9 ∧ s.exitNodeBitmap ≠ none := by
  refine ⟨_, ⟨twoOfThree, bitAlloc 2, 9, false, 4, (), true⟩, rfl, twoNodes_at.setStep _, rfl, ?_⟩
  decide

end Slurmpp.StepPartial
