/-
  The job counters of a node: the jobs that run there, are suspended there, are completing there, and run there without
  sharing it.  `make_node_alloc`, `make_node_comp`, `make_node_idle`, `_suspend_job_nodes`, `_resume_job_nodes`,
  `allocate_nodes` and `deallocate_nodes` move a job from one counter to another.

  1. **One node** — `Load` is the number of jobs of each kind, `Shows n l` says that the node shows the load `l`, and
     there is one lemma for each function.
  2. **One job** — the loops over the nodes of a job, its end, its requeue and the report of an epilog.
-/
import Slurmpp.Lib.Tally
import Slurmpp.Common.BitCount

namespace Slurmpp.NodeJobs

open Bitstring Tally List Option Bool BitVec Nat

/-! ## Records -/

inductive NodeBase
  | unknown | down | idle | allocated | error | mixed | future
deriving DecidableEq

/-- A node record, with the node's bits of `idle_node_bitmap`, `share_node_bitmap`, `cg_node_bitmap`,
    `up_node_bitmap` and `avail_node_bitmap`. -/
structure NodeRecord where
  base : NodeBase
  completing : Bool
  drain : Bool
  fail : Bool
  noRespond : Bool
  runJobCnt : BitVec 16
  susJobCnt : BitVec 16
  compJobCnt : BitVec 16
  noShareJobCnt : BitVec 16
  idleBit : Bool
  shareBit : Bool
  cgBit : Bool
  upBit : Bool
  availBit : Bool
deriving DecidableEq

/-- The base states of a job; `finished` stands for those behind `JOB_SUSPENDED`. -/
inductive JobBase
  | pending | running | suspended | finished
deriving DecidableEq

structure Details where
  shared : BitVec 16
  requeue : BitVec 16
deriving DecidableEq

/-- A job record.  `restartCnt` is only ever counted up and compared with zero. -/
structure JobRecord where
  base : JobBase
  completing : Bool
  nodeBitmap : Option Bitstr
  nodeBitmapCg : Option Bitstr
  nodeCnt : BitVec 32
  details : Option Details
  batchFlag : Bool
  restartCnt : Nat

/-- `job_ptr->details && (job_ptr->details->shared == 0)` -/
def JobRecord.nonSharing (job : JobRecord) : Bool := job.details.any fun d => d.shared == 0

/-! ## One node -/

def makeNodeAlloc (job : JobRecord) (n : NodeRecord) : NodeRecord :=
  let n := { n with runJobCnt := n.runJobCnt + 1, idleBit := false }
  let n := if job.nonSharing then { n with shareBit := false, noShareJobCnt := n.noShareJobCnt + 1 } else n
  { n with base := .allocated }

/-- One job less runs on the node: `make_node_comp` and `_suspend_job_nodes` have the same lines for it. -/
def dropRun (job : JobRecord) (n : NodeRecord) : NodeRecord :=
  let n := { n with runJobCnt := decNonzero n.runJobCnt }
  if job.nonSharing then
    { n with
      noShareJobCnt := decNonzero n.noShareJobCnt
      shareBit := n.shareBit || decNonzero n.noShareJobCnt == 0 }
  else n

/-- The last lines of `make_node_comp` and of the loop of `_suspend_job_nodes`. -/
def settleBase (n : NodeRecord) : NodeRecord :=
  let n := { n with idleBit := n.idleBit || (n.runJobCnt == 0 && n.compJobCnt == 0) }
  if n.base = .down then n
  else if n.runJobCnt ≠ 0 then { n with base := .allocated }
  else { n with base := .idle }

def makeNodeComp (job : JobRecord) (suspended : Bool) (n : NodeRecord) : NodeRecord :=
  let n := if suspended then { n with susJobCnt := decNonzero n.susJobCnt } else dropRun job n
  settleBase (if n.base ≠ .down then { n with compJobCnt := n.compJobCnt + 1, completing := true, cgBit := true } else n)

/-- The body of the loop of `_suspend_job_nodes`. -/
def suspendNode (job : JobRecord) (n : NodeRecord) : NodeRecord :=
  settleBase (dropRun job { n with susJobCnt := n.susJobCnt + 1 })

/-- The body of the second loop of `_resume_job_nodes`. -/
def resumeNode (job : JobRecord) (n : NodeRecord) : NodeRecord :=
  let n := { n with susJobCnt := decNonzero n.susJobCnt, runJobCnt := n.runJobCnt + 1 }
  let n := if job.nonSharing then
      { n with
        noShareJobCnt := n.noShareJobCnt + 1
        shareBit := n.shareBit && n.noShareJobCnt + 1 == 0 }
    else n
  { n with idleBit := false, base := .allocated }

/-- `make_node_idle` behind the branches for the job. -/
def settleIdle (n : NodeRecord) : NodeRecord :=
  let n := if n.compJobCnt = 0 then { n with completing := false, cgBit := false } else n
  if n.base = .down then n
  else
    let ready := !n.noRespond && !n.fail && !n.drain
    let n := { n with upBit := true, availBit := ready }
    if (n.drain || n.fail) && n.runJobCnt == 0 && n.compJobCnt == 0 then { n with base := .idle, idleBit := true }
    else if n.runJobCnt ≠ 0 then { n with base := .allocated, availBit := n.availBit || ready }
    else
      { n with
        base := .idle
        availBit := n.availBit || ready
        idleBit := n.idleBit || (!n.noRespond && !n.completing) }

/-- The branches of `make_node_idle` for a job that still held the node. -/
def leaveNode (job : JobRecord) (n : NodeRecord) : NodeRecord :=
  match job.base with
  | .suspended => settleIdle { n with susJobCnt := decNonzero n.susJobCnt }
  | .running => settleIdle { n with runJobCnt := decNonzero n.runJobCnt }
  | .pending | .finished =>
    let n := { n with compJobCnt := decNonzero n.compJobCnt }
    if 0 < n.compJobCnt then n else settleIdle n

/-- One node less to wait for. -/
def countDown (job : JobRecord) : JobRecord :=
  if job.nodeCnt = 0 then job
  else { job with nodeCnt := job.nodeCnt - 1, completing := job.completing && job.nodeCnt - 1 != 0 }

/-- `make_node_idle` for the node with the number `inx`.  A bit that is not set in the job's bitmap is a replay. -/
def makeNodeIdle (inx : Nat) (job : JobRecord) (n : NodeRecord) : Option (NodeRecord × JobRecord) :=
  match job.nodeBitmapCg, job.nodeBitmap with
  | some cg, _ =>
    if bitTest cg inx then (bitClear cg inx).map fun cg =>
      let job := countDown { job with nodeBitmapCg := some cg }
      (leaveNode job n, job)
    else some (settleIdle n, job)
  | none, some b =>
    if bitTest b inx then (bitClear b inx).map fun b =>
      let job := countDown { job with nodeBitmap := some b }
      (leaveNode job n, job)
    else some (settleIdle n, job)
  | none, none => some (settleIdle n, job)

/-- The number of jobs that run on a node, are suspended there, are completing there, and run there without
    sharing it. -/
structure Load where
  run : Nat
  sus : Nat
  comp : Nat
  noShare : Nat
deriving DecidableEq

instance : Add Load := ⟨fun l m => ⟨l.run + m.run, l.sus + m.sus, l.comp + m.comp, l.noShare + m.noShare⟩⟩

structure Load.Fits (l : Load) : Prop where
  run : l.run < 2 ^ 16
  sus : l.sus < 2 ^ 16
  comp : l.comp < 2 ^ 16
  noShare : l.noShare < 2 ^ 16

structure Counts (n : NodeRecord) (l : Load) : Prop where
  run : n.runJobCnt.toNat = l.run
  sus : n.susJobCnt.toNat = l.sus
  comp : n.compJobCnt.toNat = l.comp
  noShare : n.noShareJobCnt.toNat = l.noShare
  share : n.shareBit = true ↔ l.noShare = 0
  cg : n.cgBit = true ↔ 0 < l.comp
  up : n.base ≠ .down

/-- A node shows a load, with the base state that goes with it. -/
structure Shows (n : NodeRecord) (l : Load) : Prop extends Counts n l where
  base : n.base = .allocated ↔ 0 < l.run

section Node

variable {n : NodeRecord} {job : JobRecord} {l : Load} {r s c k : Nat} {x : BitVec 16}

theorem toNat_add_one {m : Nat} (h : x.toNat = m) (hm : m + 1 < 2 ^ 16) : (x + 1).toNat = m + 1 := by
  rw [toNat_add, h]
  exact mod_eq_of_lt hm

theorem ne_zero_iff {m : Nat} (h : x.toNat = m) : x ≠ 0 ↔ 0 < m := by
  rw [← h, Nat.pos_iff_ne_zero, ne_eq, ne_eq, ← toNat_inj]
  rfl

theorem eq_zero_iff {m : Nat} (h : x.toNat = m) : x = 0 ↔ m = 0 := by
  rw [← h, ← toNat_inj]
  rfl

theorem Shows.makeNodeAlloc (h : Shows n ⟨r, s, c, k⟩) (hr : r + 1 < 2 ^ 16)
    (hk : k + job.nonSharing.toNat < 2 ^ 16) :
    Shows (makeNodeAlloc job n) ⟨r + 1, s, c, k + job.nonSharing.toNat⟩ := by
  have hrun := toNat_add_one h.run hr
  unfold NodeJobs.makeNodeAlloc
  cases hns : job.nonSharing with
  | false => exact { h with run := hrun, up := nofun, base := by simp }
  | true =>
    rw [hns] at hk
    exact { h with
      run := hrun
      noShare := toNat_add_one h.noShare hk
      share := by simp
      up := nofun
      base := by simp }

theorem Counts.dropRun (h : Counts n ⟨r + 1, s, c, k + job.nonSharing.toNat⟩) :
    Counts (dropRun job n) ⟨r, s, c, k⟩ := by
  have hrun : (decNonzero n.runJobCnt).toNat = r := toNat_decNonzero (by decide) h.run
  unfold NodeJobs.dropRun
  cases hns : job.nonSharing with
  | false =>
    rw [hns] at h
    exact { h with run := hrun }
  | true =>
    rw [hns] at h
    have hno : (decNonzero n.noShareJobCnt).toNat = k := toNat_decNonzero (by decide) h.noShare
    have hbit : n.shareBit = false := by
      rw [← Bool.not_eq_true, h.share]
      exact succ_ne_zero k
    refine { h with run := hrun, noShare := hno, share := ?_ }
    have hshare : (n.shareBit || decNonzero n.noShareJobCnt == 0) = true ↔ k = 0 := by
      rw [hbit, Bool.false_or, beq_iff_eq]
      exact eq_zero_iff hno
    exact hshare

theorem Counts.settleBase (h : Counts n l) : Shows (settleBase n) l := by
  unfold NodeJobs.settleBase
  rw [if_neg h.up]
  split_ifs with hrun
  · exact { h with up := nofun, base := iff_of_true rfl ((ne_zero_iff h.run).1 hrun) }
  · exact { h with up := nofun, base := iff_of_false nofun fun hpos => hrun ((ne_zero_iff h.run).2 hpos) }

theorem Counts.complete (h : Counts n ⟨r, s, c, k⟩) (hc : c + 1 < 2 ^ 16) :
    Counts { n with compJobCnt := n.compJobCnt + 1, completing := true, cgBit := true } ⟨r, s, c + 1, k⟩ :=
  { h with comp := toNat_add_one h.comp hc, cg := by simp }

theorem Shows.makeNodeComp_running (h : Shows n ⟨r + 1, s, c, k + job.nonSharing.toNat⟩) (hc : c + 1 < 2 ^ 16) :
    Shows (makeNodeComp job false n) ⟨r, s, c + 1, k⟩ := by
  have hdrop := h.toCounts.dropRun
  rw [makeNodeComp, if_neg Bool.false_ne_true, if_pos hdrop.up]
  exact (hdrop.complete hc).settleBase

theorem Shows.makeNodeComp_suspended (h : Shows n ⟨r, s + 1, c, k⟩) (hc : c + 1 < 2 ^ 16) :
    Shows (makeNodeComp job true n) ⟨r, s, c + 1, k⟩ := by
  have hdrop : Counts { n with susJobCnt := decNonzero n.susJobCnt } ⟨r, s, c, k⟩ :=
    { h with sus := toNat_decNonzero (by decide) h.sus }
  rw [makeNodeComp, if_pos rfl, if_pos hdrop.up]
  exact (hdrop.complete hc).settleBase

theorem Shows.suspendNode (h : Shows n ⟨r + 1, s, c, k + job.nonSharing.toNat⟩) (hs : s + 1 < 2 ^ 16) :
    Shows (suspendNode job n) ⟨r, s + 1, c, k⟩ := by
  have hsus : Counts { n with susJobCnt := n.susJobCnt + 1 } ⟨r + 1, s + 1, c, k + job.nonSharing.toNat⟩ :=
    { h with sus := toNat_add_one h.sus hs }
  exact hsus.dropRun.settleBase

theorem Shows.resumeNode (h : Shows n ⟨r, s + 1, c, k⟩) (hr : r + 1 < 2 ^ 16)
    (hk : k + job.nonSharing.toNat < 2 ^ 16) : Shows (resumeNode job n) ⟨r + 1, s, c, k + job.nonSharing.toNat⟩ := by
  have hrun := toNat_add_one h.run hr
  have hsus : (decNonzero n.susJobCnt).toNat = s := toNat_decNonzero (by decide) h.sus
  unfold NodeJobs.resumeNode
  cases hns : job.nonSharing with
  | false => exact { h with run := hrun, sus := hsus, up := nofun, base := by simp }
  | true =>
    rw [hns] at hk
    have hno := toNat_add_one h.noShare hk
    have hshare : (n.shareBit && n.noShareJobCnt + 1 == 0) = false := by
      rw [beq_eq_false_iff_ne.2 ((ne_zero_iff hno).2 (succ_pos k)), Bool.and_false]
    exact { h with
      run := hrun
      sus := hsus
      noShare := hno
      share := iff_of_false (Bool.eq_false_iff.1 hshare) (succ_ne_zero k)
      up := nofun
      base := by simp }

theorem settleIdle_shows (h : Counts { n with cgBit := decide (0 < l.comp) } l) (hcg : 0 < l.comp → n.cgBit = true) :
    Shows (settleIdle n) l := by
  have hcount : Counts (if n.compJobCnt = 0 then { n with completing := false, cgBit := false } else n) l := by
    have hzero := eq_zero_iff h.comp
    split_ifs with hc
    · exact { h with cg := by simp [hzero.1 hc] }
    · have hcomp : 0 < l.comp := pos_of_ne_zero fun h0 => hc (hzero.2 h0)
      exact { h with cg := iff_of_true (hcg hcomp) hcomp }
  unfold settleIdle
  generalize (if n.compJobCnt = 0 then _ else n) = m at hcount
  have hrun := ne_zero_iff hcount.run
  dsimp only
  rw [if_neg hcount.up]
  split_ifs with hdrain hpos
  · have h0 : l.run = 0 := by
      rw [and_eq_true, and_eq_true, beq_iff_eq] at hdrain
      exact (eq_zero_iff hcount.run).1 hdrain.1.2
    exact { hcount with up := nofun, base := by simp [h0] }
  · exact { hcount with up := nofun, base := iff_of_true rfl (hrun.1 hpos) }
  · exact { hcount with up := nofun, base := iff_of_false nofun fun hgt => hpos (hrun.2 hgt) }

theorem Shows.settleIdle (h : Shows n l) : Shows (settleIdle n) l :=
  settleIdle_shows { h with cg := by simp } h.cg.2

theorem leaveNode_eq (hrun : job.base ≠ .running) (hsus : job.base ≠ .suspended) :
    leaveNode job n = if 0 < decNonzero n.compJobCnt then { n with compJobCnt := decNonzero n.compJobCnt }
      else settleIdle { n with compJobCnt := decNonzero n.compJobCnt } := by
  unfold leaveNode
  cases hb : job.base with
  | running => exact absurd hb hrun
  | suspended => exact absurd hb hsus
  | pending | finished => rfl

/-- The report of the epilog for a job that was waited for.  The early return keeps the base state, which is right. -/
theorem Shows.leaveNode (h : Shows n ⟨r, s, c + 1, k⟩) (hrun : job.base ≠ .running) (hsus : job.base ≠ .suspended) :
    Shows (leaveNode job n) ⟨r, s, c, k⟩ := by
  have hcomp : (decNonzero n.compJobCnt).toNat = c := toNat_decNonzero (by decide) h.comp
  have hcg : n.cgBit = true := h.cg.2 (succ_pos c)
  rw [leaveNode_eq hrun hsus]
  split_ifs with hpos
  · have hc : 0 < c := by
      rw [← hcomp]
      exact lt_def.1 hpos
    exact { h with comp := hcomp, cg := iff_of_true hcg hc }
  · exact settleIdle_shows { h with comp := hcomp, cg := by simp } fun _ => hcg

end Node

/-! ## One job -/

def onNodes (b : Bitstr) (f : NodeRecord → NodeRecord) (nodes : List NodeRecord) : List NodeRecord :=
  nodes.mapIdx fun i n => if bitTest b i then f n else n

def allocateNodes (nodes : List NodeRecord) (job : JobRecord) : Option (List NodeRecord) :=
  job.nodeBitmap.map fun b => onNodes b (makeNodeAlloc job) nodes

/-- The lines of `select_nodes` that start a job on the nodes of `b`. -/
def startJob (nodes : List NodeRecord) (b : Bitstr) (job : JobRecord) : Option (List NodeRecord × JobRecord) :=
  let job := { job with nodeBitmap := some b }
  (allocateNodes nodes job).map fun nodes =>
    (nodes, { job with base := .running, nodeCnt := BitVec.ofNat 32 (setBelow b b.bits) })

/-- `job_suspend` with `SUSPEND_JOB`; `_suspend_job_nodes` is its loop. -/
def suspendJob (nodes : List NodeRecord) (job : JobRecord) : Option (List NodeRecord × JobRecord) :=
  if job.base = .running then job.nodeBitmap.map fun b =>
    (onNodes b (suspendNode job) nodes, { job with base := .suspended, completing := false })
  else some (nodes, job)

def anyDown (b : Bitstr) (nodes : List NodeRecord) : Bool :=
  nodes.zipIdx.any fun (n, i) => bitTest b i && n.base = .down

/-- `job_suspend` with `RESUME_JOB`; `_resume_job_nodes` refuses if a node is down. -/
def resumeJob (nodes : List NodeRecord) (job : JobRecord) : Option (List NodeRecord × JobRecord) :=
  if job.base = .suspended then job.nodeBitmap.map fun b =>
    if anyDown b nodes then (nodes, job)
    else (onNodes b (resumeNode job) nodes, { job with base := .running, completing := false })
  else some (nodes, job)

def buildCgBitmap (nodeCount : Nat) (job : JobRecord) : Option JobRecord :=
  match job.nodeBitmap with
  | some b => (bitSetCount b).map fun cnt =>
    { job with nodeBitmapCg := some (bitCopy b), completing := job.completing && cnt != 0 }
  | none => (bitAlloc nodeCount).map fun b => { job with nodeBitmapCg := some b, completing := false }

/-- The nodes of the bitmap that are down: no report is expected from them. -/
def downNodes (cg : Bitstr) (nodes : List NodeRecord) : List Nat :=
  (range nodes.length).filter fun i => bitTest cg i && (nodes[i]?).any (·.base = .down)

/-- The loop of `deallocate_nodes` and what follows it.  Without nodes the message about it reads the details. -/
def deallocLoop (nodes : List NodeRecord) (suspended : Bool) (job : JobRecord) (cg : Bitstr) :
    Option (List NodeRecord × JobRecord) :=
  let down := downNodes cg nodes
  let nodeCount := setBelow cg nodes.length
  (down.foldlM bitClear cg).bind fun cg' =>
    if nodeCount = 0 ∧ job.details = none then none
    else some (onNodes cg (makeNodeComp job suspended) nodes, { job with
        nodeBitmapCg := some cg'
        nodeCnt := job.nodeCnt - BitVec.ofNat 32 down.length
        completing := job.completing && nodeCount - down.length != 0 })

def deallocateNodes (nodes : List NodeRecord) (suspended : Bool) (job : JobRecord) :
    Option (List NodeRecord × JobRecord) :=
  match job.nodeBitmapCg with
  | some cg => deallocLoop nodes suspended job cg
  | none => (buildCgBitmap nodes.length job).bind fun job => job.nodeBitmapCg.bind (deallocLoop nodes suspended job)

/-- `build_cg_bitmap` and then `deallocate_nodes`, as a job's end has them. -/
def giveUpNodes (nodes : List NodeRecord) (suspended : Bool) (job : JobRecord) :
    Option (List NodeRecord × JobRecord) :=
  (buildCgBitmap nodes.length job).bind (deallocateNodes nodes suspended)

/-- The end of a job, as in `job_complete`: it is finished and completing, and gives up its nodes. -/
def endJob (nodes : List NodeRecord) (job : JobRecord) : Option (List NodeRecord × JobRecord) :=
  giveUpNodes nodes (job.base = .suspended) { job with base := .finished, completing := true }

/-- `job_requeue` refuses the job or has nothing to do for it. -/
def requeueRefused (job : JobRecord) : Bool :=
  job.base = .finished || !job.details.any (fun d => d.requeue != 0) || job.completing || job.base = .pending ||
    !job.batchFlag

def jobRequeue (nodes : List NodeRecord) (job : JobRecord) : Option (List NodeRecord × JobRecord) :=
  if requeueRefused job then some (nodes, job)
  else (giveUpNodes nodes (job.base = .suspended) { job with base := .finished, completing := false }).map
    fun (nodes, job) =>
      (nodes, { job with base := .pending, completing := job.nodeCnt != 0, restartCnt := job.restartCnt + 1 })

def batchRequeueFini (job : JobRecord) : JobRecord :=
  if job.completing ∨ job.base ≠ .pending ∨ job.batchFlag = false then job
  else { job with nodeCnt := 0, nodeBitmap := none }

/-- `drain_nodes` for one node. -/
def drainNode (n : NodeRecord) : NodeRecord := if n.drain then n else { n with drain := true, availBit := false }

/-- The last lines of `job_epilog_complete`. -/
def epilogFini (job : JobRecord) : JobRecord := if job.completing then job else batchRequeueFini job

/-- `job_epilog_complete` for a report from the node with the number `inx`; `find_node_record` finds no node if there
    is none with that number. -/
def jobEpilogComplete (inx : Nat) (nodes : List NodeRecord) (returnCode : BitVec 32) (job : JobRecord) :
    Option (List NodeRecord × JobRecord) :=
  if (job.base = .pending ∧ job.completing = false) ∨ job.nodeBitmap = none then some (nodes, job)
  else match nodes[inx]? with
    | none => some (nodes, epilogFini job)
    | some n => (makeNodeIdle inx job (if returnCode ≠ 0 then drainNode n else n)).map fun (n, job) =>
      (nodes.set inx n, epilogFini job)

/-! ## What a job adds to a node -/

def JobRecord.holds (i : Nat) (job : JobRecord) : Bool := job.nodeBitmap.any fun b => bitTest b i

def JobRecord.runsOn (i : Nat) (job : JobRecord) : Bool := job.base = .running && job.holds i

def JobRecord.suspendedOn (i : Nat) (job : JobRecord) : Bool := job.base = .suspended && job.holds i

/-- The job is completing and waits for the epilog on the node. -/
def JobRecord.awaits (i : Nat) (job : JobRecord) : Bool :=
  job.completing && job.nodeBitmapCg.any fun cg => bitTest cg i

def JobRecord.runsAlone (i : Nat) (job : JobRecord) : Bool := job.runsOn i && job.nonSharing

def JobRecord.load (i : Nat) (job : JobRecord) : Load :=
  ⟨(job.runsOn i).toNat, (job.suspendedOn i).toNat, (job.awaits i).toNat, (job.runsAlone i).toNat⟩

/-- What is true of a job on `count` nodes between two calls.  A bitmap of completing nodes is there as soon as the job
    was ended once, and empty while the job is not completing: this is what makes a late report a replay. -/
structure JobOk (count : Nat) (job : JobRecord) : Prop where
  held : job.base = .running ∨ job.base = .suspended → job.completing = false ∧
    ∃ b, job.nodeBitmap = some b ∧ b.bits = count ∧ job.nodeCnt.toNat = setBelow b count
  waits : job.completing = true → job.nodeBitmap ≠ none ∧
    ∃ cg, job.nodeBitmapCg = some cg ∧ job.nodeCnt.toNat = setBelow cg count
  size : ∀ cg, job.nodeBitmapCg = some cg → cg.bits = count
  clear : job.completing = false → ∀ cg, job.nodeBitmapCg = some cg → ∀ i < count, bitTest cg i = false
  ended : job.base = .finished ∨ job.restartCnt ≠ 0 → job.nodeBitmapCg ≠ none

/-- The node goes from `n` to `n'` as the job goes from `job` to `job'`, whatever else is on the node. -/
def Moves (i : Nat) (n n' : NodeRecord) (job job' : JobRecord) : Prop :=
  ∀ l : Load, Shows n (l + job.load i) → (l + job'.load i).Fits → Shows n' (l + job'.load i)

/-- A call does to every node what it does to the job. -/
structure Lawful (nodes : List NodeRecord) (job : JobRecord) (nodes' : List NodeRecord) (job' : JobRecord) : Prop where
  ok : JobOk nodes.length job'
  length_eq : nodes'.length = nodes.length
  moves : ∀ i n, nodes[i]? = some n → ∃ n', nodes'[i]? = some n' ∧ Moves i n n' job job'

section Job

variable {nodes nodes' : List NodeRecord} {n n' : NodeRecord} {job job' : JobRecord} {b cg : Bitstr} {i count : Nat}
  {f : NodeRecord → NodeRecord}

theorem load_running (hb : job.base = .running) (hc : job.completing = false) (hm : job.nodeBitmap = some b) :
    job.load i = if bitTest b i then ⟨1, 0, 0, job.nonSharing.toNat⟩ else ⟨0, 0, 0, 0⟩ := by
  unfold JobRecord.load JobRecord.runsAlone JobRecord.runsOn JobRecord.suspendedOn JobRecord.awaits JobRecord.holds
  rw [hb, hc, hm]
  cases hi : bitTest b i <;> simp [hi]

theorem load_suspended (hb : job.base = .suspended) (hc : job.completing = false) (hm : job.nodeBitmap = some b) :
    job.load i = if bitTest b i then ⟨0, 1, 0, 0⟩ else ⟨0, 0, 0, 0⟩ := by
  unfold JobRecord.load JobRecord.runsAlone JobRecord.runsOn JobRecord.suspendedOn JobRecord.awaits JobRecord.holds
  rw [hb, hc, hm]
  cases hi : bitTest b i <;> simp [hi]

theorem load_inactive (hrun : job.base ≠ .running) (hsus : job.base ≠ .suspended) :
    job.load i = ⟨0, 0, (job.awaits i).toNat, 0⟩ := by
  unfold JobRecord.load JobRecord.runsAlone JobRecord.runsOn JobRecord.suspendedOn
  simp [hrun, hsus]

theorem Moves.of_load (h : job'.load i = job.load i) (hn : ∀ l, Shows n l → Shows n' l) : Moves i n n' job job' := by
  intro l hl _
  rw [h]
  exact hn _ hl

theorem Lawful.refl (h : JobOk nodes.length job) : Lawful nodes job nodes job :=
  ⟨h, rfl, fun _ n hi => ⟨n, hi, .of_load rfl fun _ => id⟩⟩

/-- **The loops**: on each node of the bitmap the job goes from the load `x` to the load `y`. -/
theorem Lawful.onNodes {x y : Load} (ok : JobOk nodes.length job')
    (hx : ∀ i < nodes.length, job.load i = if bitTest b i then x else ⟨0, 0, 0, 0⟩)
    (hy : ∀ i < nodes.length, job'.load i = if bitTest b i then y else ⟨0, 0, 0, 0⟩)
    (hf : ∀ n l, Shows n (l + x) → (l + y).Fits → Shows (f n) (l + y)) : Lawful nodes job (onNodes b f nodes) job' := by
  refine ⟨ok, length_mapIdx, fun i n hi => ?_⟩
  have hlt : i < nodes.length := (List.getElem?_eq_some_iff.1 hi).1
  refine ⟨if bitTest b i then f n else n, by simp [NodeJobs.onNodes, hi], ?_⟩
  by_cases hbit : bitTest b i = true
  · intro l hl hfit
    rw [if_pos hbit, hy i hlt, if_pos hbit]
    rw [hx i hlt, if_pos hbit] at hl
    rw [hy i hlt, if_pos hbit] at hfit
    exact hf n l hl hfit
  · rw [if_neg hbit]
    refine .of_load ?_ fun _ => id
    rw [hx i hlt, hy i hlt, if_neg hbit, if_neg hbit]

theorem Lawful.startJob (h : JobOk nodes.length job) (hpend : job.base = .pending) (hcomp : job.completing = false)
    (hb : b.bits = nodes.length) (hs : startJob nodes b job = some (nodes', job')) : Lawful nodes job nodes' job' := by
  obtain ⟨rfl, hj⟩ : NodeJobs.onNodes b (makeNodeAlloc { job with nodeBitmap := some b }) nodes = nodes' ∧ { job with
        nodeBitmap := some b
        base := .running
        nodeCnt := BitVec.ofNat 32 (setBelow b b.bits) } = job' := by
    simpa [NodeJobs.startJob, allocateNodes] using hs
  have hrun' : job'.base = .running := hj ▸ rfl
  have hcomp' : job'.completing = false := hj ▸ hcomp
  have hm' : job'.nodeBitmap = some b := hj ▸ rfl
  have hcg' : job'.nodeBitmapCg = job.nodeBitmapCg := hj ▸ rfl
  have hre' : job'.restartCnt = job.restartCnt := hj ▸ rfl
  have hns' : job'.nonSharing = job.nonSharing := hj ▸ rfl
  have hcnt : job'.nodeCnt.toNat = setBelow b nodes.length := by
    have hle := setBelow_le b b.bits
    have hlt := b.bits_lt
    rw [← hj, BitVec.toNat_ofNat, mod_eq_of_lt (by omega), hb]
  have hload : ∀ i < nodes.length, job.load i = if bitTest b i then ⟨0, 0, 0, 0⟩ else ⟨0, 0, 0, 0⟩ := fun i _ => by
    rw [load_inactive (by rw [hpend]; nofun) (by rw [hpend]; nofun), JobRecord.awaits, hcomp, ite_self]
    rfl
  have hok : JobOk nodes.length job' :=
    { held := fun _ => ⟨hcomp', b, hm', hb, hcnt⟩
      waits := fun hc => absurd hc (by simp [hcomp'])
      size := hcg' ▸ h.size
      clear := fun _ => hcg' ▸ h.clear hcomp
      ended := fun he => hcg' ▸ h.ended (.inr (hre' ▸ he.resolve_left (by simp [hrun']))) }
  refine .onNodes hok hload (fun i _ => load_running hrun' hcomp' hm') fun n l hl hfit => ?_
  rw [hns'] at hfit ⊢
  exact hl.makeNodeAlloc hfit.run hfit.noShare

theorem Lawful.suspendJob (h : JobOk nodes.length job) (hs : suspendJob nodes job = some (nodes', job')) :
    Lawful nodes job nodes' job' := by
  unfold NodeJobs.suspendJob at hs
  by_cases hrun : job.base = .running
  · obtain ⟨hcomp, b, hm, hb, hcnt⟩ := h.held (.inl hrun)
    rw [if_pos hrun] at hs
    obtain ⟨b', hb', hj⟩ := map_eq_some_iff.1 hs
    cases hm.symm.trans hb'
    cases hj
    exact .onNodes ⟨fun _ => ⟨rfl, b, hm, hb, hcnt⟩, nofun, h.size, fun _ => h.clear hcomp,
      fun he => h.ended (.inr (he.resolve_left nofun))⟩ (fun i _ => load_running hrun hcomp hm)
      (fun i _ => load_suspended rfl rfl hm) fun n l hl hfit => hl.suspendNode hfit.sus
  · rw [if_neg hrun] at hs
    cases hs
    exact .refl h

theorem Lawful.resumeJob (h : JobOk nodes.length job) (hs : resumeJob nodes job = some (nodes', job')) :
    Lawful nodes job nodes' job' := by
  revert hs
  fun_cases NodeJobs.resumeJob with
  | case1 hsus =>
    intro hs
    obtain ⟨hcomp, b, hm, hb, hcnt⟩ := h.held (.inr hsus)
    obtain ⟨b', hb', hj⟩ := map_eq_some_iff.1 hs
    cases hm.symm.trans hb'
    split_ifs at hj with hdown
    · cases hj
      exact .refl h
    cases hj
    exact .onNodes ⟨fun _ => ⟨rfl, b, hm, hb, hcnt⟩, nofun, h.size, fun _ => h.clear hcomp,
      fun he => h.ended (.inr (he.resolve_left nofun))⟩ (fun i _ => load_suspended hsus hcomp hm)
      (fun i _ => load_running rfl rfl hm) fun n l hl hfit => hl.resumeNode hfit.run hfit.noShare
  | case2 =>
    rintro ⟨⟩
    exact .refl h

theorem eq_false_of_setBelow (h : setBelow b count = 0) (hi : i < count) : bitTest b i = false :=
  eq_false_iff.2 (countP_eq_zero.1 h i (mem_range.2 hi))

theorem buildCgBitmap_eq (hm : job.nodeBitmap = some b) (hb : b.bits = count)
    (h : buildCgBitmap count job = some job') :
    job' = { job with nodeBitmapCg := some b, completing := job.completing && setBelow b count != 0 } := by
  unfold buildCgBitmap at h
  split at h
  next b' hb' =>
    cases hm.symm.trans hb'
    obtain ⟨cnt, hcnt, rfl⟩ := map_eq_some_iff.1 h
    rw [bitSetCount_eq (bits_lt_of_bitSetCount hcnt), hb, some.injEq] at hcnt
    rw [hcnt]
    rfl
  next hno => exact absurd (hm.symm.trans hno) nofun

section

variable (hup : ∀ n ∈ nodes, n.base ≠ .down)
include hup

theorem downNodes_eq_nil : downNodes cg nodes = [] :=
  filter_eq_nil_iff.2 fun i _ hi => by
    obtain ⟨n, hn, hd⟩ := (any_eq_true _ _).1 (and_eq_true _ _ ▸ hi).2
    exact hup n (mem_of_getElem? hn) (of_decide_eq_true hd)

variable {suspended : Bool}

theorem deallocLoop_eq (h : deallocLoop nodes suspended job cg = some (nodes', job')) :
    nodes' = onNodes cg (makeNodeComp job suspended) nodes ∧
      job' = { job with nodeBitmapCg := some cg, completing := job.completing && setBelow cg nodes.length != 0 } := by
  unfold deallocLoop at h
  rw [downNodes_eq_nil hup] at h
  obtain ⟨cg', hcg, h⟩ := bind_eq_some_iff.1 h
  cases hcg
  split_ifs at h
  cases h
  refine ⟨rfl, ?_⟩
  simp

/-- **Giving up the nodes**: all of them are waited for. -/
theorem giveUpNodes_eq (h : giveUpNodes nodes suspended job = some (nodes', job'))
    (hm : job.nodeBitmap = some b) (hb : b.bits = nodes.length) :
    nodes' = onNodes b (makeNodeComp job' suspended) nodes ∧
      job' = { job with nodeBitmapCg := some b, completing := job.completing && setBelow b nodes.length != 0 } := by
  obtain ⟨job1, h1, h⟩ := bind_eq_some_iff.1 h
  obtain rfl := buildCgBitmap_eq hm hb h1
  obtain ⟨rfl, rfl⟩ := deallocLoop_eq hup h
  simp

end

theorem JobOk.awaits_eq (h : JobOk count job) (hcg : job.nodeBitmapCg = some cg) (hi : i < count) :
    job.awaits i = bitTest cg i := by
  rw [JobRecord.awaits, hcg, any_some]
  cases hc : job.completing with
  | true => exact Bool.true_and _
  | false => rw [h.clear hc cg hcg i hi, Bool.false_and]

theorem load_released (h : JobOk count job) (hcg : job.nodeBitmapCg = some b) (hrun : job.base ≠ .running)
    (hsus : job.base ≠ .suspended) (hi : i < count) :
    job.load i = if bitTest b i then ⟨0, 0, 1, 0⟩ else ⟨0, 0, 0, 0⟩ := by
  rw [load_inactive hrun hsus, h.awaits_eq hcg hi]
  cases bitTest b i <;> rfl

theorem JobOk.released (hb : b.bits = count) (hact : ¬(job.base = .running ∨ job.base = .suspended))
    (hm : job.nodeBitmap ≠ none) (hcg : job.nodeBitmapCg = some b) (hcnt : job.nodeCnt.toNat = setBelow b count)
    (hcomp : job.completing = false → setBelow b count = 0) : JobOk count job where
  held h := absurd h hact
  waits _ := ⟨hm, b, hcg, hcnt⟩
  size cg h := some.inj (hcg.symm.trans h) ▸ hb
  clear hc cg h i hi := by
    cases hcg.symm.trans h
    exact eq_false_of_setBelow (hcomp hc) hi
  ended _ := by simp [hcg]

theorem Lawful.release (h : JobOk nodes.length job) (hm : job.nodeBitmap = some b)
    (hold : job.base = if suspended then .suspended else .running) (ok : JobOk nodes.length job')
    (hrun : job'.base ≠ .running) (hsus : job'.base ≠ .suspended) (hcg : job'.nodeBitmapCg = some b)
    (hns : job'.nonSharing = job.nonSharing) :
    Lawful nodes job (NodeJobs.onNodes b (makeNodeComp job' suspended) nodes) job' := by
  cases suspended with
  | false =>
    obtain ⟨hcomp, -⟩ := h.held (.inl hold)
    refine .onNodes ok (fun i _ => load_running hold hcomp hm) (fun i hi => load_released ok hcg hrun hsus hi)
      fun n l hl hfit => ?_
    rw [← hns] at hl
    exact hl.makeNodeComp_running hfit.comp
  | true =>
    obtain ⟨hcomp, -⟩ := h.held (.inr hold)
    exact .onNodes ok (fun i _ => load_suspended hold hcomp hm) (fun i hi => load_released ok hcg hrun hsus hi)
      fun n l hl hfit => hl.makeNodeComp_suspended hfit.comp

theorem base_eq_of_active (h : job.base = .running ∨ job.base = .suspended) :
    job.base = if decide (job.base = .suspended) then .suspended else .running := by
  obtain hrun | hsus := h
  · rw [hrun]; rfl
  · rw [hsus]; rfl

theorem Lawful.endJob (h : JobOk nodes.length job) (hup : ∀ n ∈ nodes, n.base ≠ .down)
    (hact : job.base = .running ∨ job.base = .suspended) (hs : endJob nodes job = some (nodes', job')) :
    Lawful nodes job nodes' job' := by
  obtain ⟨-, b, hm, hb, hcnt⟩ := h.held hact
  obtain ⟨rfl, hj⟩ := giveUpNodes_eq hup hs hm hb
  have hbase' : job'.base = .finished := hj ▸ rfl
  have hcomp' : job'.completing = (setBelow b nodes.length != 0) := by rw [hj, Bool.true_and]
  have hcg' : job'.nodeBitmapCg = some b := hj ▸ rfl
  have hok : JobOk nodes.length job' := .released hb (by simp [hbase']) (by rw [hj]; simp [hm]) hcg'
    (by rw [hj]; exact hcnt) (by simp [hcomp'])
  exact .release h hm (base_eq_of_active hact) hok (by simp [hbase']) (by simp [hbase']) hcg' (hj ▸ rfl)

theorem active_of_not_refused (h : ¬requeueRefused job = true) :
    (job.base = .running ∨ job.base = .suspended) ∧ job.details ≠ none := by
  refine ⟨?_, fun hdet => h (by simp [requeueRefused, hdet])⟩
  cases hb : job.base <;> simp [requeueRefused, hb] at h ⊢

theorem Lawful.jobRequeue (h : JobOk nodes.length job) (hup : ∀ n ∈ nodes, n.base ≠ .down)
    (hs : jobRequeue nodes job = some (nodes', job')) : Lawful nodes job nodes' job' := by
  unfold NodeJobs.jobRequeue at hs
  by_cases href : requeueRefused job = true
  · rw [if_pos href] at hs
    cases hs
    exact .refl h
  rw [if_neg href] at hs
  obtain ⟨hact, -⟩ := active_of_not_refused href
  obtain ⟨-, b, hm, hb, hcnt⟩ := h.held hact
  obtain ⟨⟨nodes2, job2⟩, h2, hpair⟩ := map_eq_some_iff.1 hs
  obtain ⟨rfl, hj2⟩ := giveUpNodes_eq hup h2 hm hb
  obtain ⟨rfl, hj⟩ := Prod.mk.inj hpair
  have hbase' : job'.base = .pending := hj ▸ rfl
  have hcnt' : job'.nodeCnt = job.nodeCnt := by rw [← hj, hj2]
  have hcomp' : job'.completing = (job.nodeCnt != 0) := by rw [← hj, hj2]
  have hcg' : job'.nodeBitmapCg = some b := by rw [← hj, hj2]
  have hns' : job'.nonSharing = job.nonSharing := by rw [← hj, hj2]; rfl
  have hok : JobOk nodes.length job' := by
    refine .released hb (by simp [hbase']) (by rw [← hj, hj2]; simp [hm]) hcg' (by rw [hcnt']; exact hcnt) fun hc => ?_
    have hzero : job.nodeCnt = 0 := by simpa [hcomp'] using hc
    rw [← hcnt, hzero]
    rfl
  have hloop : makeNodeComp job2 (decide (job.base = .suspended)) = makeNodeComp job' (decide (job.base = .suspended)) := by
    rw [← hj]
    rfl
  rw [hloop]
  exact .release h hm (base_eq_of_active hact) hok (by simp [hbase']) (by simp [hbase']) hcg' hns'

theorem JobOk.completing (h : JobOk count job) (hcg : job.nodeBitmapCg = some cg) (hi : i < count)
    (hbit : bitTest cg i = true) : job.completing = true ∧ job.base ≠ .running ∧ job.base ≠ .suspended := by
  have hcomp : job.completing = true := by
    have hawait := h.awaits_eq hcg hi
    rw [hbit, JobRecord.awaits, and_eq_true] at hawait
    exact hawait.1
  have hact : ¬(job.base = .running ∨ job.base = .suspended) := fun hact => by
    rw [(h.held hact).1] at hcomp
    exact absurd hcomp (by simp)
  exact ⟨hcomp, not_or.1 hact⟩

theorem JobOk.epilogFini (h : JobOk count job) :
    JobOk count (epilogFini job) ∧ ∀ i, (NodeJobs.epilogFini job).load i = job.load i := by
  unfold NodeJobs.epilogFini
  split_ifs with hc
  · exact ⟨h, fun _ => rfl⟩
  unfold batchRequeueFini
  split_ifs with hstay
  · exact ⟨h, fun _ => rfl⟩
  obtain ⟨-, hpend, -⟩ : job.completing = false ∧ job.base = .pending ∧ job.batchFlag = true := by
    simpa using hstay
  refine ⟨⟨fun hact => ?_, fun hcomp => absurd hcomp hc, h.size, h.clear, h.ended⟩, fun i => ?_⟩
  · rw [hpend] at hact
    exact absurd hact (by simp)
  · simp [JobRecord.load, JobRecord.runsAlone, JobRecord.runsOn, JobRecord.suspendedOn, JobRecord.awaits, hpend]

theorem Shows.drainNode {l : Load} (h : Shows n l) : Shows (drainNode n) l := by
  unfold NodeJobs.drainNode
  split_ifs
  · exact h
  · exact { h with }

variable {inx : Nat}

theorem Lawful.set (ok : JobOk nodes.length job') (hi : nodes[inx]? = some n)
    (hmove : Moves inx n n' job job') (hsame : ∀ i < nodes.length, i ≠ inx → job'.load i = job.load i) :
    Lawful nodes job (nodes.set inx n') job' := by
  refine ⟨ok, length_set, fun i m hm => ?_⟩
  have hlt : i < nodes.length := (List.getElem?_eq_some_iff.1 hm).1
  by_cases hinx : inx = i
  · subst hinx
    cases hi.symm.trans hm
    exact ⟨n', by simp [hlt], hmove⟩
  · exact ⟨m, by rw [getElem?_set_ne hinx, hm], .of_load (hsame i hlt fun h => hinx h.symm) fun _ => id⟩

theorem base_countDown : (countDown job).base = job.base := by
  unfold countDown
  split_ifs <;> rfl

theorem nodeBitmapCg_countDown : (countDown job).nodeBitmapCg = job.nodeBitmapCg := by
  unfold countDown
  split_ifs <;> rfl

/-- **The report of an epilog that was waited for**: the node is crossed off, and the job is no longer completing when
    it was the last one. -/
theorem JobOk.countDown {cg' : Bitstr} (h : JobOk count job) (hcg : job.nodeBitmapCg = some cg)
    (hinx : inx < count) (hbit : bitTest cg inx = true) (hclr : bitClear cg inx = some cg') :
    JobOk count (countDown { job with nodeBitmapCg := some cg' }) := by
  obtain ⟨hcomp, hrun, hsus⟩ := h.completing hcg hinx hbit
  have hsize := h.size cg hcg
  obtain ⟨hm, cg1, hcg1, hcnt⟩ := h.waits hcomp
  cases hcg.symm.trans hcg1
  have hless := setBelow_bitClear hclr (hsize ▸ hinx) hbit count
  rw [if_pos hinx] at hless
  obtain ⟨cg2, hclr2, hbits, -⟩ := bitClear_eq (hsize ▸ hinx)
  cases hclr.symm.trans hclr2
  have hne : job.nodeCnt ≠ 0 := fun h0 => by
    rw [h0] at hcnt
    simp only [ofNat_eq_ofNat, toNat_zero] at hcnt
    omega
  have hdec : (job.nodeCnt - 1).toNat = setBelow cg' count :=
    toNat_sub_of_eq_add (by rw [hcnt, ← hless]; rfl)
  unfold NodeJobs.countDown
  rw [if_neg hne]
  refine ⟨fun hact => absurd hact (not_or.2 ⟨hrun, hsus⟩), fun _ => ⟨hm, cg', rfl, hdec⟩, fun cg3 hcg3 => ?_, fun hc cg3 hcg3 i hi => ?_,
    fun _ => some_ne_none cg'⟩
  · rw [← some.inj hcg3, hbits, hsize]
  · cases hcg3
    have hzero : job.nodeCnt - 1 = 0 := by simpa [hcomp] using hc
    exact eq_false_of_setBelow (by rw [← hdec, hzero]; rfl) hi

theorem Lawful.makeNodeIdle {m : NodeRecord} (h : JobOk nodes.length job)
    (hcg : job.nodeBitmapCg = some cg) (hi : nodes[inx]? = some n) (hm : ∀ l, Shows n l → Shows m l)
    (hs : makeNodeIdle inx job m = some (n', job')) : Lawful nodes job (nodes.set inx n') job' := by
  have hlt : inx < nodes.length := (List.getElem?_eq_some_iff.1 hi).1
  unfold NodeJobs.makeNodeIdle at hs
  rw [hcg] at hs
  dsimp only at hs
  split at hs
  next hbit =>
    obtain ⟨cg', hclr, hpair⟩ := map_eq_some_iff.1 hs
    have hok := h.countDown hcg hlt hbit hclr
    obtain ⟨rfl, hj⟩ := Prod.mk.inj hpair
    rw [hj] at hok ⊢
    have hbase : job'.base = job.base := hj ▸ base_countDown
    have hcg' : job'.nodeBitmapCg = some cg' := hj ▸ nodeBitmapCg_countDown
    obtain ⟨cg2, hclr2, -, htest⟩ := bitClear_eq ((h.size cg hcg).symm ▸ hlt)
    cases hclr.symm.trans hclr2
    obtain ⟨-, hrun, hsus⟩ := h.completing hcg hlt hbit
    have hload : ∀ i, job.load i = ⟨0, 0, (job.awaits i).toNat, 0⟩ := fun i => load_inactive hrun hsus
    have hload' : ∀ i, job'.load i = ⟨0, 0, (job'.awaits i).toNat, 0⟩ := fun i =>
      load_inactive (hbase ▸ hrun) (hbase ▸ hsus)
    refine .set hok hi (fun l hl hfit => ?_) fun i hilt hne => ?_
    · have hl := hm _ hl
      rw [hload, h.awaits_eq hcg hlt, hbit] at hl
      rw [hload', hok.awaits_eq hcg' hlt, htest, hbit, decide_eq_true rfl, Bool.not_true, Bool.and_false]
      exact hl.leaveNode (hbase ▸ hrun) (hbase ▸ hsus)
    · rw [hload, hload', h.awaits_eq hcg hilt, hok.awaits_eq hcg' hilt, htest, decide_eq_false hne, Bool.not_false,
        Bool.and_true]
  next hbit =>
    cases hs
    exact .set h hi (.of_load rfl fun l hl => (hm l hl).settleIdle) fun _ _ _ => rfl

theorem Lawful.job_only {job'' : JobRecord} (h : Lawful nodes job nodes' job') (ok : JobOk nodes.length job'')
    (hload : ∀ i, job''.load i = job'.load i) : Lawful nodes job nodes' job'' := by
  refine ⟨ok, h.length_eq, fun i n hi => ?_⟩
  obtain ⟨n', hn', hmove⟩ := h.moves i n hi
  refine ⟨n', hn', fun l hl hfit => ?_⟩
  rw [hload] at hfit ⊢
  exact hmove l hl hfit

section

variable (hlate : job.base = .running ∨ job.base = .suspended → job.restartCnt ≠ 0)
include hlate

theorem JobOk.exists_cg (h : JobOk count job)
    (hlook : ¬((job.base = .pending ∧ job.completing = false) ∨ job.nodeBitmap = none)) :
    ∃ cg, job.nodeBitmapCg = some cg := by
  refine ne_none_iff_exists'.1 ?_
  cases hb : job.base with
  | finished => exact h.ended (.inl hb)
  | running => exact h.ended (.inr (hlate (.inl hb)))
  | suspended => exact h.ended (.inr (hlate (.inr hb)))
  | pending =>
    have hc : job.completing = true := by
      rw [← not_eq_false]
      exact fun hc => hlook (.inl ⟨hb, hc⟩)
    obtain ⟨-, cg, hcg, -⟩ := h.waits hc
    simp [hcg]

theorem jobEpilogComplete_ne_none {returnCode : BitVec 32} (h : JobOk nodes.length job) :
    jobEpilogComplete inx nodes returnCode job ≠ none := by
  fun_cases NodeJobs.jobEpilogComplete with
  | case1 | case2 => exact nofun
  | case3 hlook n hi =>
    obtain ⟨cg, hcg⟩ := h.exists_cg hlate hlook
    have hlt : inx < nodes.length := (List.getElem?_eq_some_iff.1 hi).1
    obtain ⟨cg', hclr, -⟩ := bitClear_eq (h.size cg hcg ▸ hlt)
    unfold NodeJobs.makeNodeIdle
    rw [hcg]
    dsimp only
    split
    · rw [hclr]
      exact nofun
    · exact nofun

theorem Lawful.jobEpilogComplete {returnCode : BitVec 32} (h : JobOk nodes.length job)
    (hs : jobEpilogComplete inx nodes returnCode job = some (nodes', job')) : Lawful nodes job nodes' job' := by
  revert hs
  fun_cases NodeJobs.jobEpilogComplete with
  | case1 hnone =>
    rintro ⟨⟩
    exact .refl h
  | case2 hnone hi =>
    rintro ⟨⟩
    exact (Lawful.refl h).job_only h.epilogFini.1 h.epilogFini.2
  | case3 hnone n hi =>
    intro hs
    obtain ⟨cg, hcg⟩ := h.exists_cg hlate hnone
    obtain ⟨⟨n', job1⟩, hidle, hpair⟩ := map_eq_some_iff.1 hs
    cases hpair
    have hlaw : Lawful nodes job (nodes.set inx n') job1 := .makeNodeIdle h hcg hi (fun l hl => by
      split_ifs
      · exact hl.drainNode
      · exact hl) hidle
    exact hlaw.job_only hlaw.ok.epilogFini.1 hlaw.ok.epilogFini.2

end

end Job

end Slurmpp.NodeJobs
