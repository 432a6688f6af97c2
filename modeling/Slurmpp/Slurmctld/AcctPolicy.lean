/-
  The usage counters of associations, QOS and users (`_adjust_limit_usage` and its four callers in
  `src/slurmctld/acct_policy.c`).  Counters go up without a check and go down with a guard against falling below zero.

  1. **One event at one place** — associations, QOS and users' records are *places*; what an event does to the counters
     of a place depends only on whether the job belongs there (`counts_adjustLimitUsage`).
  2. **Runs** — as long as limits are enforced and the totals fit, the counters of every place are the totals over the
     jobs that are submitted, respectively running, there (`usage_counts_jobs`).
  3. **The guard** — without `ACCOUNTING_ENFORCE_LIMITS` nothing is counted (`not_enforced_not_counted`).
-/
import Slurmpp.Lib.Machine
import Slurmpp.Lib.Forest
import Slurmpp.Lib.Tally

namespace Slurmpp.AcctPolicy

open Tally Option List Function Nat

/-! ## The model -/

inductive EventType
  | addSubmit
  | remSubmit
  | jobBegin
  | jobFini
deriving DecidableEq

/-- `struct assoc_mgr_association_usage` -/
structure AssocUsage where
  usedSubmitJobs : BitVec 32
  usedJobs : BitVec 32
  grpUsedCpus : BitVec 32
  grpUsedMem : BitVec 32
  grpUsedNodes : BitVec 32
deriving DecidableEq

/-- `slurmdb_used_limits_t` -/
structure UsedLimits where
  uid : BitVec 32
  submitJobs : BitVec 32
  jobs : BitVec 32
  cpus : BitVec 32
  nodes : BitVec 32
deriving DecidableEq

/-- `struct assoc_mgr_qos_usage`; a `user_limit_list` that is not there yet is empty. -/
structure QosUsage where
  grpUsedSubmitJobs : BitVec 32
  grpUsedJobs : BitVec 32
  grpUsedCpus : BitVec 32
  grpUsedMem : BitVec 32
  grpUsedNodes : BitVec 32
  userLimitList : List UsedLimits
deriving DecidableEq

/-- What `assoc_mgr_fill_in_assoc` is asked for. -/
structure AssocRec where
  id : BitVec 32
  acct : Option String
  partition : Option String
  uid : BitVec 32

/-- The association manager: the associations with their parents, and the search for one, which ends with an
    error or with a pointer (which may be `NULL`) and an id. -/
structure AssocMgr where
  tree : Forest Nat
  id : Nat → BitVec 32
  uid : Nat → BitVec 32
  fillInAssoc : AssocRec → Option (Option Nat × BitVec 32)

structure JobRecord where
  jobId : BitVec 32
  userId : BitVec 32
  assocId : BitVec 32
  assocPtr : Option Nat
  account : Option String
  partition : Option String
  qosPtr : Option Nat
  totalCpus : BitVec 32
  nodeCnt : BitVec 32
  /-- `details->pn_min_memory`, if there are details -/
  pnMinMemory : Option (BitVec 32)
deriving DecidableEq

structure Usage where
  assocs : Nat → AssocUsage
  qoses : Nat → QosUsage

/-- `_valid_job_assoc`; the job gets the association that is found. -/
def validJobAssoc (mgr : AssocMgr) (job : JobRecord) : Bool × JobRecord :=
  if job.assocPtr.any fun a => mgr.id a = job.assocId ∧ mgr.uid a = job.userId then (true, job)
  else
    let assocRec : AssocRec := if job.assocId ≠ 0 then ⟨job.assocId, none, none, 0⟩
      else ⟨0, job.account, job.partition, job.userId⟩
    match mgr.fillInAssoc assocRec with
    | none => (false, { job with assocPtr := none })
    | some (a, id) => (true, { job with assocPtr := a, assocId := id })

/-- `job_memory`; the highest bit of `pn_min_memory` is `MEM_PER_CPU`. -/
def jobMemory (job : JobRecord) : BitVec 32 :=
  match job.pnMinMemory with
  | none => 0
  | some mem => if mem.msb then (mem &&& 0x7fffffff) * job.totalCpus else mem * job.nodeCnt

/-- The loop body for an association. -/
def adjustAssoc (type : EventType) (job : JobRecord) (usage : AssocUsage) : AssocUsage :=
  match type with
  | .addSubmit => { usage with usedSubmitJobs := usage.usedSubmitJobs + 1 }
  | .remSubmit => { usage with usedSubmitJobs := decNonzero usage.usedSubmitJobs }
  | .jobBegin => { usage with
      usedJobs := usage.usedJobs + 1
      grpUsedCpus := usage.grpUsedCpus + job.totalCpus
      grpUsedMem := usage.grpUsedMem + jobMemory job
      grpUsedNodes := usage.grpUsedNodes + job.nodeCnt }
  | .jobFini => { usage with
      usedJobs := decNonzero usage.usedJobs
      grpUsedCpus := subClamped usage.grpUsedCpus job.totalCpus
      grpUsedMem := subClamped usage.grpUsedMem (jobMemory job)
      grpUsedNodes := subClamped usage.grpUsedNodes job.nodeCnt }

def adjustUsedLimits (type : EventType) (job : JobRecord) (limits : UsedLimits) : UsedLimits :=
  match type with
  | .addSubmit => { limits with submitJobs := limits.submitJobs + 1 }
  | .remSubmit => { limits with submitJobs := decNonzero limits.submitJobs }
  | .jobBegin => { limits with
      jobs := limits.jobs + 1
      cpus := limits.cpus + job.totalCpus
      nodes := limits.nodes + job.nodeCnt }
  | .jobFini => { limits with
      cpus := subClamped limits.cpus job.totalCpus
      jobs := subClamped limits.jobs 1
      nodes := subClamped limits.nodes job.nodeCnt }

def newUsedLimits (uid : BitVec 32) : UsedLimits := ⟨uid, 0, 0, 0, 0⟩

def getUsedLimitsForUser (list : List UsedLimits) (uid : BitVec 32) : Option UsedLimits :=
  list.find? (·.uid = uid)

/-- Changes the record that `_get_used_limits_for_user` finds; a record that is not there is appended first. -/
def withUsedLimits (f : UsedLimits → UsedLimits) (uid : BitVec 32) : List UsedLimits → List UsedLimits
  | [] => [f (newUsedLimits uid)]
  | limits :: rest => if limits.uid = uid then f limits :: rest else limits :: withUsedLimits f uid rest

def adjustQos (type : EventType) (job : JobRecord) (usage : QosUsage) : QosUsage :=
  let usage := { usage with
    userLimitList := withUsedLimits (adjustUsedLimits type job) job.userId usage.userLimitList }
  match type with
  | .addSubmit => { usage with grpUsedSubmitJobs := usage.grpUsedSubmitJobs + 1 }
  | .remSubmit => { usage with grpUsedSubmitJobs := decNonzero usage.grpUsedSubmitJobs }
  | .jobBegin => { usage with
      grpUsedJobs := usage.grpUsedJobs + 1
      grpUsedCpus := usage.grpUsedCpus + job.totalCpus
      grpUsedMem := usage.grpUsedMem + jobMemory job
      grpUsedNodes := usage.grpUsedNodes + job.nodeCnt }
  | .jobFini => { usage with
      grpUsedJobs := subClamped usage.grpUsedJobs 1
      grpUsedCpus := subClamped usage.grpUsedCpus job.totalCpus
      grpUsedMem := subClamped usage.grpUsedMem (jobMemory job)
      grpUsedNodes := subClamped usage.grpUsedNodes job.nodeCnt }

/-- `_adjust_limit_usage`; `enforce` is `accounting_enforce & ACCOUNTING_ENFORCE_LIMITS`. -/
def adjustLimitUsage (enforce : Bool) (mgr : AssocMgr) (type : EventType) (job : JobRecord) (usage : Usage) :
    Usage × JobRecord :=
  if !enforce then (usage, job)
  else
    match validJobAssoc mgr job with
    | (false, job) => (usage, job)
    | (true, job) =>
      let qoses := job.qosPtr.elim usage.qoses fun q =>
        Function.update usage.qoses q (adjustQos type job (usage.qoses q))
      -- the association, and then the parents
      let assocs := job.assocPtr.elim usage.assocs fun a =>
        (mgr.tree.path a).foldl (fun assocs x => Function.update assocs x (adjustAssoc type job (assocs x)))
          usage.assocs
      (⟨assocs, qoses⟩, job)

def acctPolicyAddJobSubmit (enforce : Bool) (mgr : AssocMgr) := adjustLimitUsage enforce mgr .addSubmit

def acctPolicyRemoveJobSubmit (enforce : Bool) (mgr : AssocMgr) := adjustLimitUsage enforce mgr .remSubmit

def acctPolicyJobBegin (enforce : Bool) (mgr : AssocMgr) := adjustLimitUsage enforce mgr .jobBegin

def acctPolicyJobFini (enforce : Bool) (mgr : AssocMgr) := adjustLimitUsage enforce mgr .jobFini

/-! ## Places -/

/-- The association a job is counted for: `none` when the job is not valid, `some none` when it is counted for
    no association. -/
def assocOf (mgr : AssocMgr) (job : JobRecord) : Option (Option Nat) :=
  if (validJobAssoc mgr job).1 then some (validJobAssoc mgr job).2.assocPtr else none

inductive Place
  | assoc (a : Nat)
  | qos (q : Nat)
  | user (q : Nat) (uid : BitVec 32)

/-- The jobs of a place: those in the subtree of an association, those of a QOS, and those of a user in it. -/
def Place.has (mgr : AssocMgr) : Place → JobRecord → Bool
  | .assoc a, job => (assocOf mgr job).any fun own => own.any fun b => decide (a ∈ mgr.tree.path b)
  | .qos q, job => (assocOf mgr job).isSome && decide (job.qosPtr = some q)
  | .user q uid, job => (assocOf mgr job).isSome && decide (job.qosPtr = some q) && decide (job.userId = uid)

/-- The counters of a place; a user's record has none for memory. -/
structure Counts where
  submitJobs : BitVec 32
  jobs : BitVec 32
  cpus : BitVec 32
  nodes : BitVec 32
  mem : Option (BitVec 32)
deriving DecidableEq

def AssocUsage.counts (u : AssocUsage) : Counts :=
  ⟨u.usedSubmitJobs, u.usedJobs, u.grpUsedCpus, u.grpUsedNodes, some u.grpUsedMem⟩

def QosUsage.counts (u : QosUsage) : Counts :=
  ⟨u.grpUsedSubmitJobs, u.grpUsedJobs, u.grpUsedCpus, u.grpUsedNodes, some u.grpUsedMem⟩

def UsedLimits.counts (u : UsedLimits) : Counts := ⟨u.submitJobs, u.jobs, u.cpus, u.nodes, none⟩

def Place.counts (usage : Usage) : Place → Counts
  | .assoc a => (usage.assocs a).counts
  | .qos q => (usage.qoses q).counts
  | .user q uid =>
    ((getUsedLimitsForUser (usage.qoses q).userLimitList uid).getD (newUsedLimits uid)).counts

variable {mgr : AssocMgr} {job job' : JobRecord} {usage : Usage} {type : EventType}

/-- What an event does to the counters of a place; the jobs go down in two ways. -/
def Counts.adjust (type : EventType) (job : JobRecord) (dec : BitVec 32 → BitVec 32) (n : Counts) : Counts :=
  match type with
  | .addSubmit => { n with submitJobs := n.submitJobs + 1 }
  | .remSubmit => { n with submitJobs := decNonzero n.submitJobs }
  | .jobBegin => { n with
      jobs := n.jobs + 1, cpus := n.cpus + job.totalCpus, nodes := n.nodes + job.nodeCnt,
      mem := n.mem.map (· + jobMemory job) }
  | .jobFini => { n with
      jobs := dec n.jobs, cpus := subClamped n.cpus job.totalCpus, nodes := subClamped n.nodes job.nodeCnt,
      mem := n.mem.map (subClamped · (jobMemory job)) }

def Place.dec : Place → BitVec 32 → BitVec 32
  | .assoc _, c => decNonzero c
  | .qos _, c | .user _ _, c => subClamped c 1

theorem counts_adjustAssoc (u : AssocUsage) :
    (adjustAssoc type job u).counts = u.counts.adjust type job decNonzero := by
  cases type <;> rfl

theorem counts_adjustQos (u : QosUsage) :
    (adjustQos type job u).counts = u.counts.adjust type job (subClamped · 1) := by
  cases type <;> rfl

theorem counts_adjustUsedLimits (u : UsedLimits) :
    (adjustUsedLimits type job u).counts = u.counts.adjust type job (subClamped · 1) := by
  cases type <;> rfl

@[simp] theorem uid_adjustUsedLimits (u : UsedLimits) : (adjustUsedLimits type job u).uid = u.uid := by
  cases type <;> rfl

theorem userLimitList_adjustQos (u : QosUsage) : (adjustQos type job u).userLimitList =
    withUsedLimits (adjustUsedLimits type job) job.userId u.userLimitList := by
  cases type <;> rfl

theorem getUsedLimitsForUser_withUsedLimits {f : UsedLimits → UsedLimits} (hf : ∀ u, (f u).uid = u.uid)
    (uid uid' : BitVec 32) (list : List UsedLimits) :
    (getUsedLimitsForUser (withUsedLimits f uid list) uid').getD (newUsedLimits uid') =
      if uid' = uid then f ((getUsedLimitsForUser list uid').getD (newUsedLimits uid'))
      else (getUsedLimitsForUser list uid').getD (newUsedLimits uid') := by
  induction list with
  | nil =>
    by_cases huid : uid' = uid
    · subst huid
      simp [withUsedLimits, getUsedLimitsForUser, hf, newUsedLimits]
    · have hne : ¬uid = uid' := fun h => huid h.symm
      simp [withUsedLimits, getUsedLimitsForUser, hf, newUsedLimits, huid, hne]
  | cons u rest ih =>
    rw [getUsedLimitsForUser, getUsedLimitsForUser] at ih ⊢
    rw [withUsedLimits]
    by_cases hu : u.uid = uid
    · rw [if_pos hu, find?_cons, find?_cons, hf]
      by_cases huid : uid' = uid
      · simp [huid, hu]
      · have hne : ¬uid = uid' := fun h => huid h.symm
        simp [hu, huid, hne]
    · rw [if_neg hu, find?_cons, find?_cons]
      by_cases huid : u.uid = uid'
      · have hne : ¬uid' = uid := fun h => hu (huid.trans h)
        simp [huid, hne]
      · simpa [huid] using ih

theorem validJobAssoc_eq : ∃ ok a id, validJobAssoc mgr job = (ok, { job with assocPtr := a, assocId := id }) := by
  rw [validJobAssoc]
  split
  next hvalid =>
    exact ⟨true, job.assocPtr, job.assocId, rfl⟩
  next hvalid =>
    dsimp only
    split
    · exact ⟨false, none, job.assocId, rfl⟩
    · exact ⟨true, _, _, rfl⟩

theorem counts_adjustLimitUsage (place : Place) :
    place.counts (adjustLimitUsage true mgr type job usage).1 =
      if place.has mgr job then (place.counts usage).adjust type job place.dec else place.counts usage := by
  obtain ⟨ok, a, id, hvalid⟩ := validJobAssoc_eq
  have hassoc : assocOf mgr job = if ok then some a else none := by rw [assocOf, hvalid]
  cases ok with
  | false =>
    have hnot : place.has mgr job = false := by cases place <;> simp [Place.has, hassoc]
    simp [adjustLimitUsage, hvalid, hnot]
  | true =>
    have hadjust : ∀ q n dec, Counts.adjust type { job with assocPtr := a, assocId := id, qosPtr := q } dec n =
        n.adjust type job dec := fun q n dec => by cases type <;> rfl
    simp only [adjustLimitUsage, hvalid, Bool.not_true, Bool.false_eq_true, if_false]
    rw [if_pos rfl] at hassoc
    cases place with
    | assoc x =>
      cases a with
      | none => simp [Place.counts, Place.has, hassoc]
      | some b =>
        simp only [Place.counts, Place.has, hassoc, any_some, elim_some, Forest.foldl_update_path, decide_eq_true_eq]
        split_ifs
        · rw [counts_adjustAssoc, hadjust]
          rfl
        · rfl
    | qos q =>
      cases hq : job.qosPtr with
      | none => simp [Place.counts, Place.has, hq]
      | some q' =>
        by_cases hqq : q = q'
        · subst hqq
          simp only [Place.counts, Place.has, hassoc, hq, elim_some, update_self]
          rw [counts_adjustQos, hadjust]
          rfl
        · have hne : ¬q' = q := fun h => hqq h.symm
          simp [Place.counts, Place.has, hq, hne, update_of_ne hqq]
    | user q uid =>
      cases hq : job.qosPtr with
      | none => simp [Place.counts, Place.has, hq]
      | some q' =>
        by_cases hqq : q = q'
        · subst hqq
          simp only [Place.counts, Place.has, hassoc, hq, elim_some, update_self, userLimitList_adjustQos]
          rw [getUsedLimitsForUser_withUsedLimits uid_adjustUsedLimits]
          by_cases huid : uid = job.userId
          · simp only [huid, if_true, isSome_some, decide_true, Bool.and_self]
            rw [counts_adjustUsedLimits, hadjust]
            rfl
          · have hne : ¬job.userId = uid := fun h => huid h.symm
            simp [huid, hne]
        · have hne : ¬q' = q := fun h => hqq h.symm
          simp [Place.counts, Place.has, hq, hne, update_of_ne hqq]

/-! ## Runs -/

def memoryRequest (job : JobRecord) : Nat :=
  match job.pnMinMemory with
  | none => 0
  | some mem => if mem.msb then (mem.toNat % 2 ^ 31) * job.totalCpus.toNat else mem.toNat * job.nodeCnt.toNat

/-- The same job with the same association, QOS and user. -/
def sameAccount (mgr : AssocMgr) (job job' : JobRecord) : Bool :=
  job.jobId = job'.jobId ∧ assocOf mgr job = assocOf mgr job' ∧ job.qosPtr = job'.qosPtr ∧ job.userId = job'.userId

/-- The same job with the same CPUs, nodes and memory request as well. -/
def sameRequest (mgr : AssocMgr) (job job' : JobRecord) : Bool :=
  sameAccount mgr job job' ∧ job.totalCpus = job'.totalCpus ∧ job.nodeCnt = job'.nodeCnt ∧
    job.pnMinMemory = job'.pnMinMemory

structure Controller where
  usage : Usage
  submitted : List JobRecord
  running : List JobRecord

def newController : Controller := ⟨⟨fun _ => ⟨0, 0, 0, 0, 0⟩, fun _ => ⟨0, 0, 0, 0, 0, []⟩⟩, [], []⟩

/-- The events of jobs: each is submitted and begun at most once at a time, and what is removed or ended is what
    was submitted or begun. -/
def controller (enforce : Bool) (mgr : AssocMgr) : Machine Controller (EventType × JobRecord) where
  step c
    | (.addSubmit, job) =>
      if c.submitted.any (·.jobId = job.jobId) then none
      else some ⟨(acctPolicyAddJobSubmit enforce mgr job c.usage).1, job :: c.submitted, c.running⟩
    | (.remSubmit, job) =>
      (c.submitted.find? (sameAccount mgr · job)).map fun old =>
        ⟨(acctPolicyRemoveJobSubmit enforce mgr job c.usage).1, c.submitted.erase old, c.running⟩
    | (.jobBegin, job) =>
      if c.running.any (·.jobId = job.jobId) then none
      else some ⟨(acctPolicyJobBegin enforce mgr job c.usage).1, c.submitted, job :: c.running⟩
    | (.jobFini, job) =>
      (c.running.find? (sameRequest mgr · job)).map fun old =>
        ⟨(acctPolicyJobFini enforce mgr job c.usage).1, c.submitted, c.running.erase old⟩

structure Counted (p : JobRecord → Bool) (submitted running : List JobRecord) (n : Counts) : Prop where
  submitJobs : n.submitJobs.toNat = tally p (fun _ => 1) submitted
  jobs : n.jobs.toNat = tally p (fun _ => 1) running
  cpus : n.cpus.toNat = tally p (·.totalCpus.toNat) running
  nodes : n.nodes.toNat = tally p (·.nodeCnt.toNat) running
  mem : ∀ m ∈ n.mem, m.toNat = tally p memoryRequest running

structure Small (p : JobRecord → Bool) (submitted running : List JobRecord) : Prop where
  submitJobs : tally p (fun _ => 1) submitted < 2 ^ 31
  jobs : tally p (fun _ => 1) running < 2 ^ 31
  cpus : tally p (·.totalCpus.toNat) running < 2 ^ 31
  nodes : tally p (·.nodeCnt.toNat) running < 2 ^ 31
  mem : tally p memoryRequest running < 2 ^ 31

/-- The totals of all places are below `2 ^ 31`. -/
def Controller.Small (mgr : AssocMgr) (c : Controller) : Prop :=
  ∀ place : Place, AcctPolicy.Small (place.has mgr) c.submitted c.running

/-- **The counters of all places show the totals.** -/
def Controller.Counted (mgr : AssocMgr) (c : Controller) : Prop :=
  ∀ place : Place, AcctPolicy.Counted (place.has mgr) c.submitted c.running (place.counts c.usage)

theorem toNat_jobMemory (h : memoryRequest job < 2 ^ 31) : (jobMemory job).toNat = memoryRequest job := by
  unfold memoryRequest at h ⊢
  unfold jobMemory
  cases hmem : job.pnMinMemory with
  | none => rfl
  | some mem =>
    rw [hmem] at h
    dsimp only at h ⊢
    have hmask : (mem &&& 0x7fffffff).toNat = mem.toNat % 2 ^ 31 := by
      rw [BitVec.toNat_and]
      exact and_two_pow_sub_one_eq_mod mem.toNat 31
    split_ifs at h ⊢ with hper
    · rw [BitVec.toNat_mul, hmask]
      exact mod_eq_of_lt (by omega)
    · rw [BitVec.toNat_mul]
      exact mod_eq_of_lt (by omega)

variable {p : JobRecord → Bool} {submitted running submitted' running' : List JobRecord} {n : Counts}
  {dec : BitVec 32 → BitVec 32} {c c' : Controller} {enforce : Bool}

inductive Lists (mgr : AssocMgr) (job : JobRecord) (submitted running : List JobRecord) :
    EventType → List JobRecord → List JobRecord → Prop
  | add : Lists mgr job submitted running .addSubmit (job :: submitted) running
  | rem {old : JobRecord} (hold : old ∈ submitted) (hsame : sameAccount mgr old job = true) :
      Lists mgr job submitted running .remSubmit (submitted.erase old) running
  | begin : Lists mgr job submitted running .jobBegin submitted (job :: running)
  | fini {old : JobRecord} (hold : old ∈ running) (hsame : sameRequest mgr old job = true) :
      Lists mgr job submitted running .jobFini submitted (running.erase old)

theorem controller_step (h : (controller enforce mgr).step c (type, job) = some c') :
    Lists mgr job c.submitted c.running type c'.submitted c'.running ∧
      c'.usage = (adjustLimitUsage enforce mgr type job c.usage).1 := by
  cases type with
  | addSubmit =>
    obtain ⟨-, h⟩ := ite_none_left_eq_some.1 h
    cases h
    exact ⟨.add, rfl⟩
  | remSubmit =>
    obtain ⟨old, hfind, rfl⟩ := map_eq_some_iff.1 h
    have hsame : sameAccount mgr old job = true := by simpa using find?_some hfind
    exact ⟨.rem (mem_of_find?_eq_some hfind) hsame, rfl⟩
  | jobBegin =>
    obtain ⟨-, h⟩ := ite_none_left_eq_some.1 h
    cases h
    exact ⟨.begin, rfl⟩
  | jobFini =>
    obtain ⟨old, hfind, rfl⟩ := map_eq_some_iff.1 h
    have hsame : sameRequest mgr old job = true := by simpa using find?_some hfind
    exact ⟨.fini (mem_of_find?_eq_some hfind) hsame, rfl⟩

theorem has_of_sameAccount (place : Place) (h : sameAccount mgr job job' = true) :
    place.has mgr job = place.has mgr job' := by
  obtain ⟨-, hassoc, hqos, huser⟩ := of_decide_eq_true h
  cases place <;> simp [Place.has, hassoc, hqos, huser]

theorem sameRequest_iff : sameRequest mgr job job' = true ↔ sameAccount mgr job job' = true ∧
    job.totalCpus = job'.totalCpus ∧ job.nodeCnt = job'.nodeCnt ∧ job.pnMinMemory = job'.pnMinMemory := by
  rw [sameRequest, decide_eq_true_iff]

theorem Counted.other {place : Place} (hn : Counted (place.has mgr) submitted running n)
    (hlists : Lists mgr job submitted running type submitted' running') (hnot : place.has mgr job = false) :
    Counted (place.has mgr) submitted' running' n := by
  cases hlists with
  | add => exact ⟨by rw [tally_cons, hnot]; simpa using hn.submitJobs, hn.jobs, hn.cpus, hn.nodes, hn.mem⟩
  | rem hold hsame =>
    refine ⟨?_, hn.jobs, hn.cpus, hn.nodes, hn.mem⟩
    have hsub := hn.submitJobs
    rw [tally_erase hold, has_of_sameAccount place hsame, hnot] at hsub
    simpa using hsub
  | begin =>
    refine ⟨hn.submitJobs, ?_, ?_, ?_, fun m hm => ?_⟩ <;> rw [tally_cons, hnot]
    · simpa using hn.jobs
    · simpa using hn.cpus
    · simpa using hn.nodes
    · simpa using hn.mem m hm
  | @fini old hold hsame =>
    have hold' := has_of_sameAccount place (sameRequest_iff.1 hsame).1
    have hkeep : ∀ w : JobRecord → Nat, tally (place.has mgr) w running =
        tally (place.has mgr) w (running.erase old) := fun w => by
      rw [tally_erase hold, hold', hnot]
      simp
    exact ⟨hn.submitJobs, hn.jobs.trans (hkeep _), hn.cpus.trans (hkeep _), hn.nodes.trans (hkeep _),
      fun m hm => (hn.mem m hm).trans (hkeep _)⟩

theorem toNat_add_of_small {c d : BitVec 32} {t x : Nat} (hc : c.toNat = t) (hd : d.toNat = x) (h : x + t < 2 ^ 31) :
    (c + d).toNat = x + t := by
  rw [BitVec.toNat_add, hc, hd, mod_eq_of_lt (by omega), add_comm]

theorem toNat_dec (place : Place) {c : BitVec 32} {t : Nat} (hc : c.toNat = t + 1) (h : t < 2 ^ 31) :
    (place.dec c).toNat = t := by
  cases place with
  | assoc a => exact toNat_decNonzero (by decide) hc
  | qos | user => exact toNat_subClamped hc h

/-- **A place with the job** counts it. -/
theorem Counted.adjust {place : Place} (hn : Counted (place.has mgr) submitted running n)
    (hlists : Lists mgr job submitted running type submitted' running') (hhas : place.has mgr job = true)
    (hold : Small (place.has mgr) submitted running) (hnew : Small (place.has mgr) submitted' running') :
    Counted (place.has mgr) submitted' running' (n.adjust type job place.dec) := by
  cases hlists with
  | add =>
    have hsub := hnew.submitJobs
    rw [tally_cons, if_pos hhas] at hsub
    refine ⟨?_, hn.jobs, hn.cpus, hn.nodes, hn.mem⟩
    rw [tally_cons, if_pos hhas]
    exact toNat_add_of_small hn.submitJobs rfl hsub
  | rem hmem hsame =>
    have hsub := hn.submitJobs
    rw [tally_erase hmem, has_of_sameAccount place hsame, if_pos hhas, add_comm] at hsub
    exact ⟨toNat_decNonzero (by decide) hsub, hn.jobs, hn.cpus, hn.nodes, hn.mem⟩
  | begin =>
    have hcons : ∀ w : JobRecord → Nat, tally (place.has mgr) w (job :: running) =
        w job + tally (place.has mgr) w running := fun w => by rw [tally_cons, if_pos hhas]
    obtain ⟨-, hjobs, hcpus, hnodes, hmem⟩ := hnew
    rw [hcons] at hjobs hcpus hnodes hmem
    refine ⟨hn.submitJobs, ?_, ?_, ?_, fun m hm => ?_⟩ <;> rw [hcons]
    · exact toNat_add_of_small hn.jobs rfl hjobs
    · exact toNat_add_of_small hn.cpus rfl hcpus
    · exact toNat_add_of_small hn.nodes rfl hnodes
    · obtain ⟨m0, hm0, rfl⟩ := map_eq_some_iff.1 hm
      exact toNat_add_of_small (hn.mem m0 hm0) (toNat_jobMemory (by omega)) hmem
  | @fini old hmem hsame =>
    obtain ⟨haccount, hcpus, hnodes, hpn⟩ := sameRequest_iff.1 hsame
    have herase : ∀ w : JobRecord → Nat, w old = w job → tally (place.has mgr) w running =
        tally (place.has mgr) w (running.erase old) + w job := fun w hw => by
      rw [tally_erase hmem, has_of_sameAccount place haccount, if_pos hhas, hw, add_comm]
    have hrequest : memoryRequest old = memoryRequest job := by
      simp only [memoryRequest, hpn, hcpus, hnodes]
    have hbound := hold.mem
    rw [herase _ hrequest] at hbound
    refine ⟨hn.submitJobs, ?_, ?_, ?_, fun m hm => ?_⟩
    · exact toNat_dec place (hn.jobs.trans (herase _ rfl)) hnew.jobs
    · exact toNat_subClamped (hn.cpus.trans (herase _ (by rw [hcpus]))) hnew.cpus
    · exact toNat_subClamped (hn.nodes.trans (herase _ (by rw [hnodes]))) hnew.nodes
    · obtain ⟨m0, hm0, rfl⟩ := map_eq_some_iff.1 hm
      refine toNat_subClamped ?_ hnew.mem
      rw [hn.mem m0 hm0, herase _ hrequest, toNat_jobMemory (by omega)]

theorem Controller.Counted.step (hc : c.Counted mgr) (hsmall : c.Small mgr) (hsmall' : c'.Small mgr)
    (h : (controller true mgr).step c (type, job) = some c') : c'.Counted mgr := by
  obtain ⟨hlists, husage⟩ := controller_step h
  intro place
  rw [husage, counts_adjustLimitUsage]
  split_ifs with hhas
  · exact (hc place).adjust hlists hhas (hsmall place) (hsmall' place)
  · exact (hc place).other hlists (Bool.eq_false_iff.2 hhas)

theorem counted_newController : newController.Counted mgr := by
  intro place
  cases place with
  | assoc | qos => exact ⟨rfl, rfl, rfl, rfl, fun m hm => by cases hm; rfl⟩
  | user q uid => exact ⟨rfl, rfl, rfl, rfl, fun m hm => by cases hm⟩

/-- **The counters show what is submitted and what is running**, at every association, QOS and user, when limits
    are enforced and the totals stay below `2 ^ 31`. -/
theorem usage_counts_jobs (h : (controller true mgr).Reach (fun c _ => c.Small mgr) newController c)
    (hsmall : c.Small mgr) : c.Counted mgr := by
  have hinv : c.Small mgr → c.Counted mgr := by
    refine h.invariant (I := fun c => c.Small mgr → c.Counted mgr) (fun _ => counted_newController) ?_
    rintro c ⟨type, job⟩ c' hc hsmall hstep hsmall'
    exact (hc hsmall).step hsmall hsmall' hstep
  exact hinv hsmall

theorem Controller.small_of_sums
    (h : ∀ w ∈ [fun _ => 1, fun job : JobRecord => job.totalCpus.toNat, fun job => job.nodeCnt.toNat, memoryRequest],
      (c.submitted.map w).sum < 2 ^ 31 ∧ (c.running.map w).sum < 2 ^ 31) : c.Small mgr := by
  intro place
  simp only [mem_cons, not_mem_nil, or_false, forall_eq_or_imp, forall_eq] at h
  obtain ⟨⟨hsub, hjobs⟩, ⟨-, hcpus⟩, ⟨-, hnodes⟩, -, hmem⟩ := h
  exact ⟨tally_le_sum.trans_lt hsub, tally_le_sum.trans_lt hjobs, tally_le_sum.trans_lt hcpus,
    tally_le_sum.trans_lt hnodes, tally_le_sum.trans_lt hmem⟩

def twoTree : Forest Nat where
  parent a := if a = 1 then some 0 else none
  rank a := a
  rank_lt h := by
    split_ifs at h with ha
    cases h
    exact ha ▸ Nat.one_pos

def twoAssocs : AssocMgr := ⟨twoTree, fun a => BitVec.ofNat 32 (a + 1), fun _ => 7, fun _ => none⟩

def accountJob : JobRecord := ⟨1, 7, 2, some 1, none, none, some 0, 4, 2, some 100⟩

theorem usage_counts_jobs_one : ∃ c,
    (controller true twoAssocs).run newController [(.addSubmit, accountJob), (.jobBegin, accountJob)] = some c ∧
    c.running = [accountJob] ∧ (Place.assoc 0).has twoAssocs accountJob = true ∧
    (c.usage.assocs 0).grpUsedMem.toNat = 200 := by
  obtain ⟨c₁, h₁⟩ : ∃ c, (controller true twoAssocs).step newController (.addSubmit, accountJob) = some c := ⟨_, rfl⟩
  obtain ⟨c₂, h₂⟩ : ∃ c, (controller true twoAssocs).step c₁ (.jobBegin, accountJob) = some c := by
    cases h₁
    exact ⟨_, rfl⟩
  have hrun₁ : c₁.submitted = [accountJob] ∧ c₁.running = [] := by
    cases h₁
    exact ⟨rfl, rfl⟩
  have hrun₂ : c₂.submitted = [accountJob] ∧ c₂.running = [accountJob] := by
    cases h₁
    cases h₂
    exact ⟨rfl, rfl⟩
  have hsmall₀ : newController.Small twoAssocs := Controller.small_of_sums (by simp [newController])
  have hsmall₁ : c₁.Small twoAssocs := Controller.small_of_sums (by rw [hrun₁.1, hrun₁.2]; decide)
  have hsmall₂ : c₂.Small twoAssocs := Controller.small_of_sums (by rw [hrun₂.1, hrun₂.2]; decide)
  have hcounted := usage_counts_jobs (.step (.step .start hsmall₀ h₁) hsmall₁ h₂) hsmall₂ (.assoc 0)
  refine ⟨c₂, by rw [Machine.run, h₁, bind_some, Machine.run, h₂]; rfl, hrun₂.2, by decide, ?_⟩
  refine (hcounted.mem _ rfl).trans ?_
  rw [hrun₂.2]
  decide

/-- **The guard.**  Without `ACCOUNTING_ENFORCE_LIMITS` a submitted job is not counted. -/
theorem not_enforced_not_counted : ∃ c,
    (controller false twoAssocs).run newController [(.addSubmit, accountJob)] = some c ∧
    c.submitted = [accountJob] ∧ (Place.assoc 1).has twoAssocs accountJob = true ∧
    (c.usage.assocs 1).usedSubmitJobs = 0 :=
  ⟨_, rfl, rfl, by decide, rfl⟩

end Slurmpp.AcctPolicy
