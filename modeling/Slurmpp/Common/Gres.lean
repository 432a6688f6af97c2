/-
  Generic resources of a node and of the jobs on it (`src/common/gres.c`).

  A node counts the devices that jobs hold and, if they are files, has a bit for each.  A topology entry has a set
  of processors, a set of devices and a count of those that are held.

  `_job_test` says whether a job fits, and on how many processors; `_job_alloc` takes free devices near the job's
  cores, then any free ones; `_job_dealloc` gives them back.  A read or write outside an array or a bitmap, a
  failed assertion and a division by zero are `none`.
-/
import Slurmpp.Common.BitCount
import Slurmpp.Lib.Tally

namespace Slurmpp.Gres

open Bitstring Tally List Option

/-! ## State -/

/-- A topology entry: `topo_cpus_bitmap`, `topo_gres_bitmap`, `topo_gres_cnt_alloc` and `topo_gres_cnt_avail` at
    one index. -/
structure Topo where
  cpus : Bitstr
  gres : Bitstr
  cntAlloc : BitVec 32
  cntAvail : BitVec 32
deriving DecidableEq

/-- `gres_node_state_t`.  Without topology entries `topo_gres_cnt_alloc` is an array with a count for each device,
    here `devAlloc`, which is `NULL` until there is a job. -/
structure NodeState where
  cntConfig : BitVec 32
  cntAvail : BitVec 32
  cntAlloc : BitVec 32
  bitAlloc : Option Bitstr
  topo : List Topo
  devAlloc : Option (List (BitVec 32))
deriving DecidableEq

/-- `gres_job_state_t`; `gres_bit_alloc` has a place for each node of the job. -/
structure JobState where
  cntAlloc : BitVec 32
  nodeCnt : Nat
  bitAlloc : Option (List (Option Bitstr))
deriving DecidableEq

/-- The positions that are set in both. -/
def common (b₁ b₂ : Bitstr) : Nat := (range b₁.bits).countP fun i => bitTest b₁ i && bitTest b₂ i

/-- `bit_overlap`, which asserts that the sizes are the same. -/
def bitOverlap (b₁ b₂ : Bitstr) : Option Nat := if b₁.bits = b₂.bits then some (common b₁ b₂) else none

/-- `bit_set` at the positions that `f` selects. -/
def setWhere (f : Nat → Bool) (is : List Nat) (b : Bitstr) : Option Bitstr :=
  is.foldlM (fun b i => if f i then bitSet b i else some b) b

/-! ## Test -/

def cpuBitmapRebuild (old : Bitstr) (newSize : Nat) : Option Bitstr :=
  (bitAlloc newSize).bind fun new =>
    if old.bits > newSize then
      if newSize = 0 then none
      else
        let ratio := old.bits / newSize
        setWhere (fun i => (range ratio).any fun j => bitTest old (i * ratio + j)) (range newSize) new
    else if old.bits = 0 then none
    else
      let ratio := newSize / old.bits
      setWhere (fun p => bitTest old (p / ratio)) (range (old.bits * ratio)) new

def validateGresNodeCpus (n : NodeState) (cpusCtld : Nat) : Option NodeState :=
  match n.topo with
  | [] => some n
  | t :: _ =>
    if t.cpus.bits = cpusCtld then some n
    else (n.topo.mapM fun t =>
      if t.cpus.bits = cpusCtld then some t
      else (cpuBitmapRebuild t.cpus cpusCtld).map fun cpus => { t with cpus := cpus }).map fun topo =>
        { n with topo := topo }

/-- What `_job_test` leaves and returns; `NO_VAL` is the value for a job whose processors do not matter. -/
structure TestResult where
  node : NodeState
  cpus : Option Bitstr
  topoSet : Bool
  cpuCnt : BitVec 32

def noVal : BitVec 32 := 0xfffffffe

/-- The arguments of `_job_test` beside the job and the node. -/
structure TestArgs where
  useTotalGres : Bool
  cpus : Option Bitstr
  cpuStart : Nat
  cpuEnd : Nat
  topoSet : Bool

/-- Whether a processor of the node is one the job may use. -/
def TestArgs.usable (args : TestArgs) (j : Nat) : Bool := args.cpus.all fun cpus => bitTest cpus (args.cpuStart + j)

/-- The number of processors, with the topology adapted to it; the second is `none` for an empty range. -/
def cpusCtld (n : NodeState) (args : TestArgs) : Option (NodeState × Option Nat) :=
  match args.cpus with
  | some _ =>
    if args.cpuEnd < args.cpuStart then some (n, none)
    else
      let cnt := args.cpuEnd - args.cpuStart + 1
      (validateGresNodeCpus n cnt).map fun n => (n, some cnt)
  | none => n.topo.head?.map fun t => (n, some t.cpus.bits)

def Topo.left (useTotalGres : Bool) (t : Topo) : BitVec 32 := if useTotalGres then t.cntAvail else t.cntAvail - t.cntAlloc

/-- The devices of the topology entries that have a processor the job may use. -/
def gresOnCpus (n : NodeState) (args : TestArgs) (cnt : Nat) : BitVec 32 :=
  n.topo.foldl (fun avail t =>
    if (range cnt).any fun j => args.usable j && bitTest t.cpus j then avail + t.left args.useTotalGres else avail) 0

def cpusAvail (n : NodeState) (args : TestArgs) (cnt : Nat) : List Nat :=
  n.topo.map fun t =>
    if t.cntAvail = 0 ∨ (!args.useTotalGres ∧ t.cntAvail ≤ t.cntAlloc) then 0
    else (range cnt).countP fun j => args.usable j && bitTest t.cpus j

/-- The state of the loop that picks the topology entries with the most processors. -/
structure Picking where
  allocCpus : Bitstr
  cpusAvail : List Nat
  gresAvail : BitVec 32
  cpuCnt : BitVec 32
  testCpuMap : Bool

/-- `top_inx` after the loop over the entries from `j` on. -/
def topInx (p : Picking) : List Topo → Nat → Option Nat → Option (Option Nat)
  | [], _, top => some top
  | t :: ts, j, top =>
    let better := match top with
      | none => if p.cpusAvail.getD j 0 ≠ 0 then some j else none
      | some k => if p.cpusAvail.getD j 0 > p.cpusAvail.getD k 0 then some j else some k
    if p.gresAvail ≠ 0 ∧ p.testCpuMap then
      (bitOverlap p.allocCpus t.cpus).bind fun shared => topInx p ts (j + 1) (if shared = 0 then top else better)
    else topInx p ts (j + 1) better

/-- The loop `while (gres_avail < job_gres_ptr->gres_cnt_alloc)`.  Every turn but the last one either uses up the
    processors of an entry or gives up the test of the processors, so that `fuel` need not be more than the number
    of entries and two. -/
def pickEntries (n : NodeState) (useTotalGres : Bool) (gresCnt : BitVec 32) : Nat → Picking → Option Picking
  | 0, _ => none
  | fuel + 1, p =>
    if ¬p.gresAvail < gresCnt then some p
    else (topInx p n.topo 0 none).bind fun top =>
      match top with
      | none =>
        if p.gresAvail ≠ 0 ∧ p.testCpuMap then pickEntries n useTotalGres gresCnt fuel { p with testCpuMap := false }
        else some { p with cpuCnt := 0 }
      | some top =>
        if p.cpusAvail.getD top 0 = 0 then some { p with cpuCnt := 0 }
        else (n.topo[top]?).bind fun t =>
          let p := { p with cpusAvail := p.cpusAvail.set top 0 }
          if (t.left useTotalGres).msb then pickEntries n useTotalGres gresCnt fuel p
          else
            (if p.gresAvail ≠ 0 then bitOr p.allocCpus t.cpus else bitAnd p.allocCpus t.cpus).bind fun allocCpus =>
              (bitSetCount allocCpus).bind fun cnt =>
                pickEntries n useTotalGres gresCnt fuel { p with
                  allocCpus := allocCpus
                  gresAvail := p.gresAvail + t.left useTotalGres
                  cpuCnt := BitVec.ofNat 32 cnt }

/-- Takes the processors that were not picked off those of the job. -/
def keepPicked (allocCpus : Bitstr) (start cnt : Nat) (cpus : Bitstr) : Option Bitstr :=
  (range cnt).foldlM (fun cpus i => if bitTest allocCpus i then some cpus else bitClear cpus (start + i)) cpus

def NodeState.left (useTotalGres : Bool) (n : NodeState) : BitVec 32 :=
  if useTotalGres then n.cntAvail else n.cntAvail - n.cntAlloc

def jobTest (n : NodeState) (gresCnt : BitVec 32) (args : TestArgs) : Option TestResult :=
  if gresCnt ≠ 0 ∧ n.topo ≠ [] ∧ args.topoSet then
    (cpusCtld n args).map fun (n, cnt) =>
      let fits : Bool := match cnt with
        | none => false
        | some cnt => decide (gresCnt ≤ gresOnCpus n args cnt)
      ⟨n, args.cpus, args.topoSet, if fits then noVal else 0⟩
  else if n.left args.useTotalGres < gresCnt then some ⟨n, args.cpus, args.topoSet, 0⟩
  else if gresCnt ≠ 0 ∧ n.topo ≠ [] then
    (cpusCtld n args).bind fun (n, cnt) =>
      match cnt with
      | none => some ⟨n, args.cpus, args.topoSet, 0⟩
      | some cnt =>
        (bitAlloc cnt).bind fun noCpus =>
          (if args.cpus.isSome then setWhere args.usable (range cnt) noCpus
            else bitNset noCpus 0 (cnt - 1)).bind fun allocCpus =>
            (pickEntries n args.useTotalGres gresCnt (n.topo.length + 2)
              ⟨allocCpus, cpusAvail n args cnt, 0, 0, true⟩).bind fun p =>
                if p.cpuCnt = 0 then some ⟨n, args.cpus, args.topoSet, 0⟩
                else
                  match args.cpus with
                  | none => some ⟨n, args.cpus, args.topoSet, p.cpuCnt⟩
                  | some cpus => (keepPicked p.allocCpus args.cpuStart cnt cpus).map fun cpus =>
                      ⟨n, some cpus, true, p.cpuCnt⟩
  else some ⟨n, args.cpus, args.topoSet, noVal⟩

/-! ## Allocation -/

/-- `_cores_on_gres`; the topology is looked up at the number of the device. -/
def coresOnGres (cores : Option Bitstr) (n : NodeState) (i : Nat) : Option Bool :=
  match cores with
  | none => some true
  | some cores =>
    if n.topo = [] then some true
    else (n.topo[i]?).map fun t => decide (t.cpus.bits = cores.bits) && decide (common t.cpus cores ≠ 0)

/-- The bitmaps and counts in the loops over the devices. -/
structure Pick where
  node : Bitstr
  job : Bitstr
  cntAlloc : BitVec 32
  gresCnt : BitVec 32

/-- A loop over devices: takes the free ones that are `ok` as long as some are wanted. -/
def takeDevices (ok : Nat → Option Bool) : List Nat → Pick → Option Pick
  | [], p => some p
  | i :: is, p =>
    if p.gresCnt = 0 then some p
    else if bitTest p.node i then takeDevices ok is p
    else (ok i).bind fun good =>
      if good then
        (bitSet p.node i).bind fun node => (bitSet p.job i).bind fun job =>
          takeDevices ok is ⟨node, job, p.cntAlloc + 1, p.gresCnt - 1⟩
      else takeDevices ok is p

def pickDevices (cores : Option Bitstr) (n : NodeState) (p : Pick) : Option Pick :=
  (takeDevices (coresOnGres cores n) (range n.cntAvail.toNat) p).bind
    (takeDevices (fun _ => some true) (range n.cntAvail.toNat))

/-- Sets the bits of a job that resumes, and counts those that were free. -/
def resumeDevices (job : Bitstr) : List Nat → Bitstr → BitVec 32 → Option (Bitstr × BitVec 32)
  | [], node, cnt => some (node, cnt)
  | i :: is, node, cnt =>
    if bitTest job i && !bitTest node i then (bitSet node i).bind fun node => resumeDevices job is node (cnt + 1)
    else resumeDevices job is node cnt

/-- The devices for the job: the node, and the job's bits on it. -/
def allocDevices (n : NodeState) (gresCnt : BitVec 32) (old : Option Bitstr) (cores : Option Bitstr)
    (memory : Nat → BitVec 32) : Option (NodeState × Option Bitstr) :=
  match old, n.bitAlloc with
  | some job, none => (bitSetCount job).map fun cnt =>
      ({ n with bitAlloc := some (bitCopy job), cntAlloc := n.cntAlloc + BitVec.ofNat 32 cnt }, some job)
  | some job, some node =>
    (resumeDevices job (range (min node.bits job.bits)) node n.cntAlloc).map fun (node, cnt) =>
      ({ n with bitAlloc := some node, cntAlloc := cnt }, some job)
  | none, some node =>
    (bitAlloc n.cntAvail.toNat).bind fun job =>
      (if node.bits < n.cntAvail.toNat then bitRealloc node n.cntAvail.toNat memory else some node).bind fun node =>
        (pickDevices cores n ⟨node, job, n.cntAlloc, gresCnt⟩).map fun p =>
          ({ n with bitAlloc := some p.node, cntAlloc := p.cntAlloc }, some p.job)
  | none, none => some ({ n with cntAlloc := n.cntAlloc + gresCnt }, none)

/-- A topology entry with processors other than the job's is passed over. -/
def Topo.skipped (cores : Option Bitstr) (t : Topo) : Bool :=
  cores.any fun cores => decide (cores.bits = t.cpus.bits) && decide (common cores t.cpus = 0)

def Topo.charge (cores : Option Bitstr) (job : Bitstr) (t : Topo) : Topo :=
  if t.skipped cores ∨ job.bits ≠ t.gres.bits then t
  else { t with cntAlloc := t.cntAlloc + BitVec.ofNat 32 (common job t.gres) }

/-- Changes the counts of the devices below `len` that the job has. -/
def countDevices (f : BitVec 32 → BitVec 32) (job : Bitstr) (len : Nat) (counts : List (BitVec 32)) :
    Option (List (BitVec 32)) :=
  if ∀ i < len, bitTest job i = true → i < counts.length then
    some (counts.mapIdx fun i c => if i < len ∧ bitTest job i then f c else c)
  else none

def chargeTopo (n : NodeState) (cores : Option Bitstr) (job : Bitstr) : Option NodeState :=
  if n.topo ≠ [] then some { n with topo := n.topo.map (Topo.charge cores job) }
  else
    let len := if n.devAlloc = none then job.bits else min job.bits n.cntConfig.toNat
    (countDevices (· + 1) job len (n.devAlloc.getD (replicate job.bits 0))).map fun counts =>
      { n with devAlloc := some counts }

/-- The topology when a job comes with or without devices of its own. -/
def chargeJob (n : NodeState) (cores : Option Bitstr) : Option Bitstr → Option NodeState
  | some job => chargeTopo n cores job
  | none => some n

/-- The job's array when `_job_alloc` is called for one of its nodes. -/
def JobState.prepare (job : JobState) (nodeCnt : Nat) : JobState :=
  if job.nodeCnt = 0 then { job with nodeCnt := nodeCnt, bitAlloc := some (replicate nodeCnt none) } else job

/-- `_job_alloc`; whether it succeeds. -/
def jobAlloc (n : NodeState) (job : JobState) (nodeCnt nodeOffset : Nat) (cores : Option Bitstr)
    (memory : Nat → BitVec 32) : Option (NodeState × JobState × Bool) :=
  if job.nodeCnt ≠ 0 ∧ job.nodeCnt < nodeCnt ∧ job.nodeCnt ≤ nodeOffset then some (n, job, false)
  else
    let job := job.prepare nodeCnt
    job.bitAlloc.bind fun places => (places[nodeOffset]?).bind fun old =>
      (allocDevices n job.cntAlloc old cores memory).bind fun (n, bits) =>
        (chargeJob n cores bits).map fun n => (n, { job with bitAlloc := some (places.set nodeOffset bits) }, true)

/-! ## Deallocation -/

def freeDevices (job : Bitstr) : List Nat → Bitstr → BitVec 32 → Option (Bitstr × BitVec 32)
  | [], node, cnt => some (node, cnt)
  | i :: is, node, cnt =>
    if bitTest job i then (bitClear node i).bind fun node => freeDevices job is node (decNonzero cnt)
    else freeDevices job is node cnt

/-- A count that does not fall below zero. -/
def subFloor (c d : BitVec 32) : BitVec 32 := if d ≤ c then c - d else 0

def Topo.release (job : Bitstr) (t : Topo) : Topo :=
  if job.bits ≠ t.gres.bits then t else { t with cntAlloc := subFloor t.cntAlloc (BitVec.ofNat 32 (common job t.gres)) }

/-- The topology when a job goes; the loop over the devices runs to `gres_cnt_config`. -/
def releaseTopo (n : NodeState) (job : Bitstr) : Option NodeState :=
  if n.topo ≠ [] then some { n with topo := n.topo.map (Topo.release job) }
  else
    match n.devAlloc with
    | none => some n
    | some counts =>
      if job.bits < n.cntConfig.toNat then none
      else (countDevices decNonzero job n.cntConfig.toNat counts).map fun counts =>
        { n with devAlloc := some counts }

/-- `_job_dealloc`; whether it succeeds. -/
def jobDealloc (n : NodeState) (job : JobState) (nodeOffset : Nat) : Option (NodeState × Bool) :=
  if job.nodeCnt ≤ nodeOffset then some (n, false)
  else
    match job.bitAlloc with
    | none => some ({ n with cntAlloc := subFloor n.cntAlloc job.cntAlloc }, true)
    | some places => (places[nodeOffset]?).bind fun bits =>
      match bits with
      | none => some ({ n with cntAlloc := subFloor n.cntAlloc job.cntAlloc }, true)
      | some bits =>
        (match n.bitAlloc with
          | some node => (freeDevices bits (range (min bits.bits node.bits)) node n.cntAlloc).map fun (node, cnt) =>
              { n with bitAlloc := some node, cntAlloc := cnt }
          | none => some { n with cntAlloc := subFloor n.cntAlloc job.cntAlloc }).bind fun n =>
            (releaseTopo n bits).map fun n => (n, true)

/-! ## What the test changes -/

/-- The topology without the processors: devices, count held and count available. -/
def NodeState.entries (n : NodeState) : List (Bitstr × BitVec 32 × BitVec 32) :=
  n.topo.map fun t => (t.gres, t.cntAlloc, t.cntAvail)

/-- Two states of one node that may differ in the processors of the topology entries only. -/
def SameButCpus (n n' : NodeState) : Prop := ∃ topo, n' = { n with topo := topo } ∧ n'.entries = n.entries

theorem SameButCpus.refl (n : NodeState) : SameButCpus n n := ⟨n.topo, rfl, rfl⟩

theorem map_of_mapM {α β : Type} {f : α → Option α} {g : α → β} (hf : ∀ a a', f a = some a' → g a' = g a)
    {l l' : List α} (h : l.mapM f = some l') : l'.map g = l.map g := by
  induction l generalizing l' with
  | nil =>
    cases h
    rfl
  | cons a l ih =>
    rw [mapM_cons] at h
    obtain ⟨a', ha, h⟩ := bind_eq_some_iff.1 h
    obtain ⟨l'', hl, h⟩ := bind_eq_some_iff.1 h
    cases h
    rw [map_cons, map_cons, hf a a' ha, ih hl]

theorem validateGresNodeCpus_same {n n' : NodeState} {cnt : Nat} (h : validateGresNodeCpus n cnt = some n') :
    SameButCpus n n' := by
  revert h
  fun_cases validateGresNodeCpus with
  | case1 | case2 =>
    rintro ⟨⟩
    exact .refl n
  | case3 =>
    intro h
    obtain ⟨topo, htopo, rfl⟩ := map_eq_some_iff.1 h
    refine ⟨topo, rfl, map_of_mapM (fun t t' ht => ?_) htopo⟩
    split_ifs at ht
    · cases ht
      rfl
    · obtain ⟨cpus, -, rfl⟩ := map_eq_some_iff.1 ht
      rfl

theorem cpusCtld_same {n n' : NodeState} {args : TestArgs} {cnt : Option Nat}
    (h : cpusCtld n args = some (n', cnt)) : SameButCpus n n' := by
  revert h
  fun_cases cpusCtld with
  | case1 =>
    rintro ⟨⟩
    exact .refl n
  | case2 =>
    intro h
    obtain ⟨n'', hv, heq⟩ := map_eq_some_iff.1 h
    cases heq
    exact validateGresNodeCpus_same hv
  | case3 =>
    intro h
    obtain ⟨t, -, heq⟩ := map_eq_some_iff.1 h
    cases heq
    exact .refl n

variable {n : NodeState} {gresCnt : BitVec 32} {args : TestArgs} {r : TestResult}

/-- **The test** changes nothing of the node but the processors of its topology. -/
theorem jobTest_same (h : jobTest n gresCnt args = some r) : SameButCpus n r.node := by
  unfold jobTest at h
  split at h
  · obtain ⟨⟨n', cnt⟩, hc, rfl⟩ := map_eq_some_iff.1 h
    exact cpusCtld_same hc
  split at h
  · cases h
    exact .refl n
  split at h
  · obtain ⟨⟨n', cnt⟩, hc, h⟩ := bind_eq_some_iff.1 h
    suffices hnode : r.node = n' from hnode ▸ cpusCtld_same hc
    cases cnt with
    | none =>
      cases h
      rfl
    | some cnt =>
      obtain ⟨b, -, h⟩ := bind_eq_some_iff.1 h
      obtain ⟨allocCpus, -, h⟩ := bind_eq_some_iff.1 h
      obtain ⟨p, -, h⟩ := bind_eq_some_iff.1 h
      split at h
      · cases h
        rfl
      · cases ha : args.cpus with
        | none =>
          rw [ha] at h
          cases h
          rfl
        | some cpus =>
          rw [ha] at h
          obtain ⟨cpus', -, rfl⟩ := map_eq_some_iff.1 h
          rfl
  · cases h
    exact .refl n

/-- **A job that fits** finds enough free devices, if the test is not one for given processors only. -/
theorem jobTest_fits (h : jobTest n gresCnt args = some r) (hfit : r.cpuCnt ≠ 0) (htotal : args.useTotalGres = false)
    (htopo : args.topoSet = false ∨ n.topo = []) (hle : n.cntAlloc.toNat ≤ n.cntAvail.toNat) :
    n.cntAlloc.toNat + gresCnt.toNat ≤ n.cntAvail.toNat := by
  unfold jobTest at h
  have h1 : ¬(gresCnt ≠ 0 ∧ n.topo ≠ [] ∧ args.topoSet) := by
    rintro ⟨-, hne, hset⟩
    obtain hset' | hnil := htopo
    · rw [hset'] at hset
      cases hset
    · exact hne hnil
  rw [if_neg h1] at h
  by_cases h2 : n.left args.useTotalGres < gresCnt
  · rw [if_pos h2] at h
    cases h
    exact absurd rfl hfit
  · rw [NodeState.left, htotal, if_neg (by simp), BitVec.lt_def, BitVec.toNat_sub_of_le (BitVec.le_def.2 hle)] at h2
    omega

/-! ## Taking devices -/

section Take

variable {b : Bitstr} {avail c g i : Nat} {p p' : Pick} {ok : Nat → Option Bool} {is : List Nat}

/-- The loops over the devices have taken those of `p.job`: of `avail` devices, none that was taken in `b`; `g` were
    wanted, and `c` were counted before. -/
structure Taking (b : Bitstr) (avail c g : Nat) (p : Pick) : Prop where
  nodeBits : p.node.bits = b.bits
  jobBits : p.job.bits = avail
  node : ∀ i, bitTest p.node i = (bitTest b i || bitTest p.job i)
  free : ∀ i, bitTest p.job i = true → bitTest b i = false
  below : ∀ i, bitTest p.job i = true → i < avail
  wanted : setBelow p.job avail + p.gresCnt.toNat = g
  counted : p.cntAlloc.toNat = c + setBelow p.job avail

theorem Taking.take (h : Taking b avail c g p) (hb : avail ≤ b.bits) (hc : c + g < 2 ^ 32) (hi : i < avail)
    (hfree : bitTest p.node i = false) (hwant : p.gresCnt ≠ 0) :
    ∃ node job, bitSet p.node i = some node ∧ bitSet p.job i = some job ∧
      Taking b avail c g ⟨node, job, p.cntAlloc + 1, p.gresCnt - 1⟩ ∧ (∀ k, bitTest job k = (decide (k = i) || bitTest p.job k)) := by
  have hn : i < p.node.bits := by rw [h.nodeBits]; omega
  have hj : i < p.job.bits := by rw [h.jobBits]; exact hi
  have hnode : bitSet p.node i = some (put true p.node i) := if_pos hn
  have hjob : bitSet p.job i = some (put true p.job i) := if_pos hj
  refine ⟨_, _, hnode, hjob, ?_, (bitSet_eq_some hjob).2.2⟩
  obtain ⟨-, hnb, hnt⟩ := bitSet_eq_some hnode
  obtain ⟨-, hjb, hjt⟩ := bitSet_eq_some hjob
  have hboth := hfree
  rw [h.node, Bool.or_eq_false_iff] at hboth
  have hcnt := setBelow_bitSet hjob hboth.2 avail
  rw [if_pos hi] at hcnt
  have hpos : p.gresCnt.toNat ≠ 0 := fun h0 => hwant (BitVec.eq_of_toNat_eq h0)
  have hone : (1 : BitVec 32).toNat = 1 := rfl
  have hwanted := h.wanted
  have hcounted := h.counted
  refine ⟨hnb.trans h.nodeBits, hjb.trans h.jobBits, fun k => ?_, fun k hk => ?_, fun k hk => ?_, ?_, ?_⟩
  · rw [hnt, hjt, h.node]
    cases decide (k = i) <;> cases bitTest b k <;> rfl
  · rw [hjt, Bool.or_eq_true, decide_eq_true_eq] at hk
    obtain rfl | hk := hk
    · exact hboth.1
    · exact h.free k hk
  · rw [hjt, Bool.or_eq_true, decide_eq_true_eq] at hk
    obtain rfl | hk := hk
    · exact hi
    · exact h.below k hk
  · dsimp only
    rw [hcnt, BitVec.toNat_sub_of_le (by rw [BitVec.le_def, hone]; omega), hone]
    omega
  · dsimp only
    rw [hcnt, BitVec.toNat_add, hcounted, hone]
    omega

/-- **A loop over devices** takes only free ones that are `ok`, and stops early only if no more are wanted. -/
theorem takeDevices_eq (h : Taking b avail c g p) (hb : avail ≤ b.bits) (hc : c + g < 2 ^ 32)
    (his : ∀ i ∈ is, i < avail ∧ ok i ≠ none) :
    ∃ p', takeDevices ok is p = some p' ∧ Taking b avail c g p' ∧
      (∀ i, bitTest p.job i = true → bitTest p'.job i = true) ∧
      (∀ i, bitTest p'.job i = true → bitTest p.job i = true ∨ ok i = some true) ∧
      (p'.gresCnt = 0 ∨ ∀ i ∈ is, ok i = some true → bitTest p'.node i = true) := by
  fun_induction takeDevices with
  | case1 p => exact ⟨p, rfl, h, fun i hi => hi, fun i hi => .inl hi, .inr nofun⟩
  | case2 i is p hwant => exact ⟨p, rfl, h, fun i hi => hi, fun i hi => .inl hi, .inl hwant⟩
  | case3 i is p hwant hfree ih =>
    obtain ⟨p', hp', ht, hmono, hok, hall⟩ := ih h (forall_mem_cons.1 his).2
    refine ⟨p', hp', ht, hmono, hok, hall.imp_right fun hall => forall_mem_cons.2 ⟨fun _ => ?_, hall⟩⟩
    -- a device that was taken stays taken
    rw [h.node, Bool.or_eq_true] at hfree
    rw [ht.node, Bool.or_eq_true]
    exact hfree.imp_right (hmono i)
  | case4 i is p hwant hfree ihtake ih =>
    rw [Bool.not_eq_true] at hfree
    obtain ⟨hi, his⟩ := forall_mem_cons.1 his
    obtain ⟨good, hgood⟩ := ne_none_iff_exists'.1 hi.2
    rw [hgood, bind_some]
    cases good with
    | false =>
      obtain ⟨p', hp', ht, hmono, hok, hall⟩ := ih h his
      exact ⟨p', hp', ht, hmono, hok, hall.imp_right fun hall =>
        forall_mem_cons.2 ⟨fun htrue => (nomatch hgood.symm.trans htrue), hall⟩⟩
    | true =>
      obtain ⟨node, job, hnode, hjob, htake, htest⟩ := h.take hb hc hi.1 hfree hwant
      rw [if_pos rfl, hnode, bind_some, hjob, bind_some]
      obtain ⟨p', hp', ht, hmono, hok, hall⟩ := ihtake node job htake his
      have hself : bitTest p'.job i = true := hmono i (by rw [htest]; simp)
      refine ⟨p', hp', ht, fun k hk => hmono k ?_, fun k hk => ?_,
        hall.imp_right fun hall => forall_mem_cons.2 ⟨fun _ => ?_, hall⟩⟩
      · rw [htest, hk, Bool.or_true]
      · obtain hk | hk := hok k hk
        · rw [htest, Bool.or_eq_true, decide_eq_true_eq] at hk
          obtain rfl | hk := hk
          · exact .inr hgood
          · exact .inl hk
        · exact .inr hk
      · rw [ht.node, hself, Bool.or_true]

/-- The free devices near the cores. -/
def nearFree (cores : Option Bitstr) (n : NodeState) (b : Bitstr) : Nat :=
  (range n.cntAvail.toNat).countP fun i => !bitTest b i && decide (coresOnGres cores n i = some true)

/-- A device that the loops may give to a job: a free one, and near the cores if there are enough of these. -/
def Candidate (cores : Option Bitstr) (n : NodeState) (b : Bitstr) (g i : Nat) : Prop :=
  bitTest b i = false ∧ (g ≤ nearFree cores n b → coresOnGres cores n i = some true)

/-- **Both loops** give the job as many devices as it wants. -/
theorem pickDevices_eq {n : NodeState} {cores : Option Bitstr} (h : Taking b n.cntAvail.toNat c g p)
    (hnone : ∀ i, bitTest p.job i = false) (hb : n.cntAvail.toNat ≤ b.bits) (hc : c + g < 2 ^ 32)
    (hcores : ∀ i < n.cntAvail.toNat, coresOnGres cores n i ≠ none)
    (henough : setBelow b n.cntAvail.toNat + g ≤ n.cntAvail.toNat) :
    ∃ p', pickDevices cores n p = some p' ∧ Taking b n.cntAvail.toNat c g p' ∧ p'.gresCnt = 0 ∧
      ∀ i, bitTest p'.job i = true → Candidate cores n b g i := by
  have his : ∀ {ok : Nat → Option Bool}, (∀ i < n.cntAvail.toNat, ok i ≠ none) →
      ∀ i ∈ range n.cntAvail.toNat, i < n.cntAvail.toNat ∧ ok i ≠ none :=
    fun hok i hi => ⟨mem_range.1 hi, hok i (mem_range.1 hi)⟩
  obtain ⟨p1, hp1, ht1, -, hnear, hall1⟩ := takeDevices_eq h hb hc (his hcores)
  have hany : ∀ i < n.cntAvail.toNat, (some true : Option Bool) ≠ none := fun _ _ => by simp
  obtain ⟨p2, hp2, ht2, -, -, hall2⟩ := takeDevices_eq ht1 hb hc (his hany)
  have hnear' : ∀ i, bitTest p1.job i = true → coresOnGres cores n i = some true := fun i hi => by
    obtain hi | hi := hnear i hi
    · rw [hnone] at hi
      cases hi
    · exact hi
  refine ⟨p2, by rw [pickDevices, hp1, bind_some, hp2], ht2, ?_, fun i hi => ⟨ht2.free i hi, fun hmany => ?_⟩⟩
  · -- if some were still wanted, every device would be taken
    obtain h0 | hall := hall2
    · exact h0
    have hfull : setBelow p2.node n.cntAvail.toNat = n.cntAvail.toNat := by
      rw [setBelow, countP_eq_length.2 (fun i hi => hall i hi rfl), length_range]
    rw [setBelow_or ht2.node ht2.free] at hfull
    have hw := ht2.wanted
    exact BitVec.eq_of_toNat_eq (by simp only [BitVec.ofNat_eq_ofNat, BitVec.toNat_ofNat, Nat.zero_mod]; omega)
  · have h0 : p1.gresCnt = 0 := by
      obtain h0 | hall := hall1
      · exact h0
      -- every free device near the cores was taken in the first loop, and this was enough
      have hle : nearFree cores n b ≤ setBelow p1.job n.cntAvail.toNat := by
        refine countP_mono_left fun k hk hok => ?_
        rw [Bool.and_eq_true, Bool.not_eq_true', decide_eq_true_eq] at hok
        have hnode := hall k hk hok.2
        rw [ht1.node, hok.1, Bool.false_or] at hnode
        exact hnode
      have hw := ht1.wanted
      exact BitVec.eq_of_toNat_eq (by simp only [BitVec.ofNat_eq_ofNat, BitVec.toNat_ofNat, Nat.zero_mod]; omega)
    -- so the second loop did nothing
    have hsame : takeDevices (fun _ => some true) (range n.cntAvail.toNat) p1 = some p1 := by
      cases range n.cntAvail.toNat with
      | nil => rfl
      | cons k ks => rw [takeDevices, if_pos h0]
    cases hsame.symm.trans hp2
    exact hnear' i hi

end Take

/-! ## Giving devices back -/

section Free

variable {node : Bitstr} {is : List Nat}

/-- **The loop that gives devices back** clears the job's, and counts down to zero at most. -/
theorem freeDevices_eq (job : Bitstr) (cnt : BitVec 32) (his : ∀ i ∈ is, i < node.bits) : ∃ node' cnt', freeDevices job is node cnt = some (node', cnt') ∧
    node'.bits = node.bits ∧ (∀ k, bitTest node' k = (bitTest node k && !(decide (k ∈ is) && bitTest job k))) ∧
    cnt'.toNat = cnt.toNat - is.countP (bitTest job) := by
  fun_induction freeDevices with
  | case1 node cnt => exact ⟨node, cnt, rfl, rfl, fun k => by simp, by simp⟩
  | case2 i is node cnt hjob ih =>
    obtain ⟨node1, hclear, hbits1, htest1⟩ := bitClear_eq (his i (mem_cons_self ..))
    rw [hclear, bind_some]
    obtain ⟨node', cnt', hfree, hbits, htest, hcnt⟩ := ih node1 (by rw [hbits1]; exact (forall_mem_cons.1 his).2)
    refine ⟨node', cnt', hfree, hbits.trans hbits1, fun k => ?_, ?_⟩
    · rw [htest, htest1]
      by_cases hk : k = i
      · subst hk
        simp [hjob]
      · simp [hk]
    · rw [hcnt, countP_cons_of_pos hjob, toNat_decNonzero_sub (by decide)]
      omega
  | case3 i is node cnt hjob ih =>
    obtain ⟨node', cnt', hfree, hbits, htest, hcnt⟩ := ih (forall_mem_cons.1 his).2
    refine ⟨node', cnt', hfree, hbits, fun k => ?_, by rw [hcnt, countP_cons_of_neg hjob]⟩
    rw [htest]
    by_cases hk : k = i
    · subst hk
      simp [hjob]
    · simp [hk]

end Free

theorem toNat_subFloor (c d : BitVec 32) : (subFloor c d).toNat = c.toNat - d.toNat := by
  unfold subFloor
  split_ifs with h
  · exact BitVec.toNat_sub_of_le h
  · have := mt BitVec.le_def.2 h
    simp only [BitVec.ofNat_eq_ofNat, BitVec.toNat_ofNat, Nat.zero_mod]
    omega

theorem countDevices_eq (f : BitVec 32 → BitVec 32) {job : Bitstr} {len : Nat} {counts : List (BitVec 32)}
    (h : ∀ i < len, bitTest job i = true → i < counts.length) :
    ∃ counts', countDevices f job len counts = some counts' ∧ counts'.length = counts.length ∧
      ∀ i, counts'.getD i 0 = if i < len ∧ bitTest job i = true then f (counts.getD i 0) else counts.getD i 0 := by
  refine ⟨_, if_pos h, by simp, fun i => ?_⟩
  rw [getD_eq_getElem?_getD, getD_eq_getElem?_getD, getElem?_mapIdx]
  by_cases hi : i < counts.length
  · rw [getElem?_eq_getElem hi]
    rfl
  · rw [getElem?_eq_none (by omega)]
    have hno : ¬(i < len ∧ bitTest job i = true) := fun ⟨h1, h2⟩ => hi (h i h1 h2)
    rw [if_neg hno]
    rfl

end Slurmpp.Gres
