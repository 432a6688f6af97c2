/-
  Jobs that start, stop and report on the nodes of a cluster.

  `life` is the machine of the starts, suspends, resumes, ends, requeues and epilog reports of a list of jobs.  Each call
  does to the nodes what it does to the one job it is for, so the counters of every node are at every point the numbers
  of jobs that run there, are suspended there, or wait for its epilog (`node_counters_exact`).  They have sixteen bits:
  with 65536 jobs running on a node its counter shows none (`run_job_cnt_wraps`).
-/
import Slurmpp.Slurmctld.NodeJobs

namespace Slurmpp.NodeJobs

open Bitstring Tally List Option

/-! ## Runs -/

structure Cluster where
  nodes : List NodeRecord
  jobs : List JobRecord

inductive Action
  | start (j : Nat) (b : Bitstr)
  | suspend (j : Nat)
  | resume (j : Nat)
  | finish (j : Nat)
  | requeue (j : Nat)
  | epilog (j inx : Nat) (returnCode : BitVec 32)
  | share (j : Nat) (details : Option Details)

def Action.job : Action → Nat
  | .start j _ | .suspend j | .resume j | .finish j | .requeue j | .epilog j _ _ | .share j _ => j

/-- When an action can be taken: a job that starts is pending and its bitmap is one of the nodes, a job that ends holds
    nodes, an epilog is one of a run that ended, so not of a job in its first run, and the details of a job, with
    its `shared` setting, change only while it holds no nodes. -/
def Enabled (count : Nat) (job : JobRecord) : Action → Prop
  | .start _ b => job.base = .pending ∧ job.completing = false ∧ b.bits = count
  | .finish _ => (job.base = .running ∨ job.base = .suspended) ∧ job.details ≠ none
  | .epilog _ _ _ => job.base = .running ∨ job.base = .suspended → job.restartCnt ≠ 0
  | .share _ _ => job.base = .pending ∧ job.completing = false
  | .suspend _ | .resume _ | .requeue _ => True

instance (count : Nat) (job : JobRecord) : (a : Action) → Decidable (Enabled count job a)
  | .start _ _ => inferInstanceAs (Decidable (_ ∧ _ ∧ _))
  | .finish _ => inferInstanceAs (Decidable ((_ ∨ _) ∧ _))
  | .epilog _ _ _ => inferInstanceAs (Decidable (_ ∨ _ → _))
  | .share _ _ => inferInstanceAs (Decidable (_ ∧ _))
  | .suspend _ | .resume _ | .requeue _ => inferInstanceAs (Decidable True)

def act (nodes : List NodeRecord) (job : JobRecord) : Action → Option (List NodeRecord × JobRecord)
  | .start _ b => startJob nodes b job
  | .suspend _ => suspendJob nodes job
  | .resume _ => resumeJob nodes job
  | .finish _ => endJob nodes job
  | .requeue _ => jobRequeue nodes job
  | .epilog _ inx returnCode => jobEpilogComplete inx nodes returnCode job
  | .share _ details => some (nodes, { job with details := details })

/-- The calls for the jobs of a cluster, in any order. -/
def life : Machine Cluster Action where
  step s a := (s.jobs[a.job]?).bind fun job =>
    if Enabled s.nodes.length job a then
      (act s.nodes job a).map fun (nodes, job) => ⟨nodes, s.jobs.set a.job job⟩
    else none

/-- The jobs of a cluster on one node. -/
def Cluster.load (s : Cluster) (i : Nat) : Load :=
  ⟨s.jobs.countP (JobRecord.runsOn i), s.jobs.countP (JobRecord.suspendedOn i), s.jobs.countP (JobRecord.awaits i),
    s.jobs.countP (JobRecord.runsAlone i)⟩

/-- After the step, no node has more than 65535 jobs running, suspended or completing on it. -/
def Roomy (s : Cluster) (a : Action) : Prop :=
  ∀ t, life.step s a = some t → ∀ i < t.nodes.length, t.jobs.countP (JobRecord.runsOn i) ≤ 65535 ∧
    t.jobs.countP (JobRecord.suspendedOn i) ≤ 65535 ∧ t.jobs.countP (JobRecord.awaits i) ≤ 65535

/-- A cluster without jobs: the nodes are up, and the jobs were not started yet. -/
structure Fresh (s : Cluster) : Prop where
  nodes : ∀ n ∈ s.nodes, Shows n ⟨0, 0, 0, 0⟩
  jobs : ∀ job ∈ s.jobs, job.base = .pending ∧ job.completing = false ∧ job.nodeBitmapCg = none ∧ job.restartCnt = 0

/-! ## Exactness -/

structure Exact (s : Cluster) : Prop where
  nodes : ∀ i n, s.nodes[i]? = some n → Shows n (s.load i)
  jobs : ∀ job ∈ s.jobs, JobOk s.nodes.length job

variable {s t : Cluster} {job job' : JobRecord} {nodes' : List NodeRecord} {a : Action} {i j : Nat}

/-- The jobs on a node but one. -/
def Cluster.others (s : Cluster) (j i : Nat) : Load := Cluster.load ⟨s.nodes, s.jobs.eraseIdx j⟩ i

theorem load_eq_others (h : s.jobs[j]? = some job) : s.load i = s.others j i + job.load i := by
  unfold Cluster.load Cluster.others Cluster.load
  rw [countP_eraseIdx h, countP_eraseIdx h, countP_eraseIdx h, countP_eraseIdx h]
  rfl

theorem load_set (h : s.jobs[j]? = some job) :
    Cluster.load ⟨nodes', s.jobs.set j job'⟩ i = s.others j i + job'.load i := by
  unfold Cluster.load Cluster.others Cluster.load
  rw [countP_set h, countP_set h, countP_set h, countP_set h]
  rfl

theorem noShare_le_run (s : Cluster) (i : Nat) : (s.load i).noShare ≤ (s.load i).run :=
  countP_mono_left fun _ _ h => (Bool.and_eq_true _ _ ▸ h).1

/-- **The step lemma**: a lawful call for one job keeps the nodes exact, as long as the counters have room. -/
theorem Exact.step (h : Exact s) (hjob : s.jobs[j]? = some job) (hlaw : Lawful s.nodes job nodes' job')
    (hfits : ∀ i < nodes'.length, (Cluster.load ⟨nodes', s.jobs.set j job'⟩ i).Fits) :
    Exact ⟨nodes', s.jobs.set j job'⟩ := by
  refine ⟨fun i n' hn' => ?_, fun x hx => ?_⟩
  · have hlt' : i < nodes'.length := (List.getElem?_eq_some_iff.1 hn').1
    have hlt : i < s.nodes.length := hlaw.length_eq ▸ hlt'
    obtain ⟨m, hm, hmove⟩ := hlaw.moves i s.nodes[i] (getElem?_eq_getElem hlt)
    obtain rfl : m = n' := some.inj (hm.symm.trans hn')
    have hshow := h.nodes i _ (getElem?_eq_getElem hlt)
    have hfit := hfits i hlt'
    rw [load_eq_others hjob] at hshow
    rw [load_set hjob] at hfit ⊢
    exact hmove _ hshow hfit
  · dsimp only
    rw [hlaw.length_eq]
    obtain hold | rfl := mem_or_eq_of_mem_set hx
    · exact h.jobs x hold
    · exact hlaw.ok

theorem Exact.up (h : Exact s) : ∀ n ∈ s.nodes, n.base ≠ .down := fun n hn => by
  obtain ⟨i, hi⟩ := mem_iff_getElem?.1 hn
  exact (h.nodes i n hi).up

theorem lawful_act (hok : JobOk s.nodes.length job) (hup : ∀ n ∈ s.nodes, n.base ≠ .down)
    (hen : Enabled s.nodes.length job a) (h : act s.nodes job a = some (nodes', job')) :
    Lawful s.nodes job nodes' job' := by
  cases a with
  | start j b => exact .startJob hok hen.1 hen.2.1 hen.2.2 h
  | suspend j => exact .suspendJob hok h
  | resume j => exact .resumeJob hok h
  | finish j => exact .endJob hok hup hen.1 h
  | requeue j => exact .jobRequeue hok hup h
  | epilog j inx returnCode => exact .jobEpilogComplete hen hok h
  | share j details =>
    obtain ⟨hpend, hcomp⟩ := hen
    cases h
    -- a pending job adds nothing to any node, so that its details do not matter
    refine (Lawful.refl hok).job_only ⟨hok.held, hok.waits, hok.size, hok.clear, hok.ended⟩ fun i => ?_
    rw [load_inactive (by simp [hpend]) (by simp [hpend]), load_inactive (by simp [hpend]) (by simp [hpend])]
    rfl

theorem fits_of_roomy (hroom : Roomy s a) (h : life.step s a = some t) {i : Nat} (hi : i < t.nodes.length) :
    (t.load i).Fits := by
  obtain ⟨hrun, hsus, hcomp⟩ := hroom t h i hi
  have hle := noShare_le_run t i
  exact ⟨Nat.lt_succ_of_le hrun, Nat.lt_succ_of_le hsus, Nat.lt_succ_of_le hcomp, Nat.lt_succ_of_le (hle.trans hrun)⟩

theorem exact_step (hs : Exact s) (hroom : Roomy s a) (h : life.step s a = some t) : Exact t := by
  have hfits := fun {i} => fits_of_roomy (i := i) hroom h
  obtain ⟨job, hjob, h⟩ := bind_eq_some_iff.1 h
  split_ifs at h with hen
  obtain ⟨⟨nodes', job'⟩, hact, rfl⟩ := map_eq_some_iff.1 h
  exact hs.step hjob (lawful_act (hs.jobs job (mem_of_getElem? hjob)) hs.up hen hact) fun i hi => hfits hi

theorem exact_of_fresh (h : Fresh s) : Exact s := by
  have hzero : ∀ i, s.load i = ⟨0, 0, 0, 0⟩ := fun i => by
    have hno : ∀ p : JobRecord → Bool, (∀ job ∈ s.jobs, p job = false) → s.jobs.countP p = 0 := fun p hp =>
      countP_eq_zero.2 fun job hjob => by simp [hp job hjob]
    unfold Cluster.load
    rw [hno, hno, hno, hno] <;> intro job hjob <;> obtain ⟨hpend, hcomp, -⟩ := h.jobs job hjob <;>
      simp [JobRecord.runsAlone, JobRecord.runsOn, JobRecord.suspendedOn, JobRecord.awaits, hpend, hcomp]
  refine ⟨fun i n hi => hzero i ▸ h.nodes n (mem_of_getElem? hi), fun job hjob => ?_⟩
  obtain ⟨hpend, hcomp, hcg, hre⟩ := h.jobs job hjob
  exact ⟨by simp [hpend], by simp [hcomp], by simp [hcg], by simp [hcg], by simp [hpend, hre]⟩

/-- **The counters of a node are exact** at every point of a run in which they have room for the jobs. -/
theorem node_counters_exact {s₀ : Cluster} (h₀ : Fresh s₀) (h : life.Reach Roomy s₀ s) (i : Nat) (n : NodeRecord)
    (hi : s.nodes[i]? = some n) :
    n.runJobCnt.toNat = s.jobs.countP (JobRecord.runsOn i) ∧
    n.susJobCnt.toNat = s.jobs.countP (JobRecord.suspendedOn i) ∧
    n.compJobCnt.toNat = s.jobs.countP (JobRecord.awaits i) ∧
    n.noShareJobCnt.toNat = s.jobs.countP (JobRecord.runsAlone i) ∧
    (n.shareBit = true ↔ n.noShareJobCnt = 0) ∧ (n.cgBit = true ↔ 0 < n.compJobCnt) ∧
    (n.base = .allocated ↔ 0 < n.runJobCnt) := by
  have hs : Exact s := h.invariant (exact_of_fresh h₀) fun _ _ _ => exact_step
  have hn := hs.nodes i n hi
  have hpos : ∀ {x : BitVec 16} {m : Nat}, x.toNat = m → (0 < m ↔ 0 < x) := fun hx => by
    rw [← hx, BitVec.lt_def]
    rfl
  exact ⟨hn.run, hn.sus, hn.comp, hn.noShare, hn.share.trans (eq_zero_iff hn.noShare).symm,
    hn.cg.trans (hpos hn.comp), hn.base.trans (hpos hn.run)⟩

theorem giveUpNodes_ne_none {nodes : List NodeRecord} {b : Bitstr} (suspended : Bool)
    (hup : ∀ n ∈ nodes, n.base ≠ .down) (hsize : nodes.length < 2 ^ 31 - 32) (hm : job.nodeBitmap = some b)
    (hb : b.bits = nodes.length) (hdet : job.details ≠ none) : giveUpNodes nodes suspended job ≠ none := by
  have hbuild : buildCgBitmap nodes.length job = some { job with
      nodeBitmapCg := some b, completing := job.completing && setBelow b nodes.length != 0 } := by
    unfold buildCgBitmap
    split
    next b' hb' =>
      cases hm.symm.trans hb'
      rw [bitSetCount_eq (hb ▸ hsize), hb]
      rfl
    next hno => cases hm.symm.trans hno
  rw [giveUpNodes, hbuild]
  simp [deallocateNodes, deallocLoop, downNodes_eq_nil hup, hdet]

/-- **No call faults**: in a state that is exact, every action that can be taken is carried out. -/
theorem step_ne_none (h : Exact s) (hsize : s.nodes.length < 2 ^ 31 - 32) (hjob : s.jobs[a.job]? = some job)
    (hen : Enabled s.nodes.length job a) : life.step s a ≠ none := by
  have hok := h.jobs job (mem_of_getElem? hjob)
  have hup : ∀ n ∈ s.nodes, n.base ≠ .down := h.up
  have hact : act s.nodes job a ≠ none := by
    cases a with
    | start | share => exact nofun
    | suspend j =>
      unfold act suspendJob
      split_ifs with hrun
      · obtain ⟨-, b, hm, -⟩ := hok.held (.inl hrun)
        simp [hm]
      · exact nofun
    | resume j =>
      unfold act resumeJob
      split_ifs with hsus
      · obtain ⟨-, b, hm, -⟩ := hok.held (.inr hsus)
        simp [hm]
      · exact nofun
    | finish j =>
      obtain ⟨-, b, hm, hb, -⟩ := hok.held hen.1
      exact giveUpNodes_ne_none _ hup hsize hm hb hen.2
    | requeue j =>
      unfold act jobRequeue
      split_ifs with href
      · exact nofun
      · obtain ⟨hact, hdet⟩ := active_of_not_refused href
        obtain ⟨-, b, hm, hb, -⟩ := hok.held hact
        rw [Ne, map_eq_none_iff]
        exact giveUpNodes_ne_none _ hup hsize hm hb hdet
    | epilog j inx returnCode => exact jobEpilogComplete_ne_none hen hok
  have hstep : life.step s a = (act s.nodes job a).map fun p => ⟨p.1, s.jobs.set a.job p.2⟩ := by
    show ((s.jobs[a.job]?).bind fun job => if Enabled s.nodes.length job a then _ else none) = _
    rw [hjob, bind_some, if_pos hen]
  rw [hstep]
  simpa using hact

def idleNode : NodeRecord := ⟨.idle, false, false, false, false, 0, 0, 0, 0, true, true, false, true, true⟩

def firstNode : Bitstr := oneWord 1 1

/-- A batch job that does not share its nodes. -/
def aloneJob : JobRecord := ⟨.pending, false, none, none, 0, some ⟨0, 1⟩, true, 0⟩

theorem fresh_cluster (nodes jobs : Nat) : Fresh ⟨.replicate nodes idleNode, .replicate jobs aloneJob⟩ where
  nodes n hn := by
    obtain ⟨-, rfl⟩ := mem_replicate.1 hn
    exact ⟨⟨rfl, rfl, rfl, rfl, by decide, by decide, by decide⟩, by decide⟩
  jobs job hjob := by
    obtain ⟨-, rfl⟩ := mem_replicate.1 hjob
    exact ⟨rfl, rfl, rfl, rfl⟩

/-- A job that is requeued while another one waits: a late report does not take the second run's node away. -/
theorem node_counters_exact_late : ∃ s n, life.run ⟨[idleNode], [aloneJob]⟩
      [.start 0 firstNode, .requeue 0, .epilog 0 0 0, .start 0 firstNode, .epilog 0 0 0] = some s ∧
    s.nodes[0]? = some n ∧ n.runJobCnt = 1 ∧ s.jobs.countP (JobRecord.runsOn 0) = 1 ∧
    n.runJobCnt.toNat = s.jobs.countP (JobRecord.runsOn 0) := by
  have hroom : ∀ s a, s.jobs.length ≤ 65535 → Roomy s a := fun s a hs t ht i _ => by
    obtain ⟨job, -, ht⟩ := bind_eq_some_iff.1 ht
    split_ifs at ht
    obtain ⟨⟨nodes', job'⟩, -, rfl⟩ := map_eq_some_iff.1 ht
    have hlen : (s.jobs.set a.job job').length ≤ 65535 := by rwa [length_set]
    exact ⟨countP_le_length.trans hlen, countP_le_length.trans hlen, countP_le_length.trans hlen⟩
  have h₁ : life.Reach Roomy ⟨[idleNode], [aloneJob]⟩ _ := .step .start (hroom _ (.start 0 firstNode) (by decide)) rfl
  have h₂ := h₁.step (hroom _ (.requeue 0) (by decide)) rfl
  have h₃ := h₂.step (hroom _ (.epilog 0 0 0) (by decide)) rfl
  have h₄ := h₃.step (hroom _ (.start 0 firstNode) (by decide)) rfl
  have h₅ := h₄.step (hroom _ (.epilog 0 0 0) (by decide)) rfl
  refine ⟨_, _, rfl, rfl, by decide, by decide, (node_counters_exact (fresh_cluster 1 1) h₅ 0 _ rfl).1⟩

/-- The node after some starts. -/
def crowdedNode (job : JobRecord) : Nat → NodeRecord
  | 0 => idleNode
  | k + 1 => makeNodeAlloc job (crowdedNode job k)

theorem runJobCnt_crowdedNode (k : Nat) : (crowdedNode job k).runJobCnt = BitVec.ofNat 16 k := by
  induction k with
  | zero => rfl
  | succ k ih =>
    have hcnt : (makeNodeAlloc job (crowdedNode job k)).runJobCnt = (crowdedNode job k).runJobCnt + 1 := by
      unfold makeNodeAlloc
      split_ifs <;> rfl
    rw [crowdedNode, hcnt, ih, BitVec.ofNat_add]
    rfl

def runningJob : JobRecord := { aloneJob with base := .running, nodeBitmap := some firstNode, nodeCnt := 1 }

/-- Some jobs run on the node, and some wait. -/
def crowd (k m : Nat) : Cluster :=
  ⟨[crowdedNode { aloneJob with nodeBitmap := some firstNode } k], .replicate k runningJob ++ .replicate m aloneJob⟩

theorem step_crowd (k m : Nat) : life.step (crowd k (m + 1)) (.start k firstNode) = some (crowd (k + 1) m) := by
  have hget : (crowd k (m + 1)).jobs[k]? = some aloneJob := by simp [crowd, replicate_succ]
  have hset : (crowd k (m + 1)).jobs.set k runningJob = (crowd (k + 1) m).jobs := by
    rw [crowd, replicate_succ, set_append_right _ _ (by simp)]
    simp [crowd, replicate_succ']
  have hstart : startJob (crowd k (m + 1)).nodes firstNode aloneJob = some ((crowd (k + 1) m).nodes, runningJob) := rfl
  have hstep : life.step (crowd k (m + 1)) (.start k firstNode) =
      ((crowd k (m + 1)).jobs[k]?).bind fun job => if Enabled 1 job (.start k firstNode) then
        (startJob (crowd k (m + 1)).nodes firstNode job).map fun p => ⟨p.1, (crowd k (m + 1)).jobs.set k p.2⟩ else none :=
    rfl
  rw [hstep, hget, bind_some, if_pos ⟨rfl, rfl, rfl⟩, hstart, map_some, hset]

theorem run_crowd (k m : Nat) : ∃ as, life.run (crowd k m) as = some (crowd (k + m) 0) := by
  induction m generalizing k with
  | zero => exact ⟨[], rfl⟩
  | succ m ih =>
    obtain ⟨as, has⟩ := ih (k + 1)
    refine ⟨.start k firstNode :: as, ?_⟩
    rw [Machine.run, step_crowd, bind_some, has, Nat.add_right_comm, Nat.add_assoc]

/-- 65536 jobs run on a node that shows none. -/
theorem run_job_cnt_wraps : Fresh (crowd 0 65536) ∧ ∃ as s n, life.run (crowd 0 65536) as = some s ∧
    s.nodes[0]? = some n ∧ n.runJobCnt = 0 ∧ s.jobs.countP (JobRecord.runsOn 0) = 65536 := by
  obtain ⟨as, has⟩ := run_crowd 0 65536
  refine ⟨fresh_cluster 1 65536, as, _, _, has, rfl, ?_, ?_⟩
  · rw [runJobCnt_crowdedNode]
    rfl
  · have hruns : runningJob.runsOn 0 = true := by decide
    rw [crowd, replicate_zero, append_nil, countP_replicate, if_pos hruns]

end Slurmpp.NodeJobs
