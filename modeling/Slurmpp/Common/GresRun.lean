/-
  Jobs that come and go on a node with generic resources.

  1. **Runs** — `traffic` is the machine of the tests, allocations and deallocations on one node.
  2. **One allocation** — if no topology entry of a device that the job may get is passed over for its cores, the
     job gets as many free devices as it wants, and every count goes up by what it got (`jobAlloc_eq`).
  3. **Conservation** — in a run of such steps the counts and bitmaps of the node are those of the jobs on it
     (`gres_conserved`).  The condition is needed: `_job_alloc` passes over the entries of other cores even when it
     took devices from them, and `_job_dealloc` does not (`topology_count_missed`).
-/
import Slurmpp.Common.Gres

namespace Slurmpp.Gres

open Bitstring Tally List Option Bool

/-! ## Runs -/

/-- A job on the node. -/
structure Holder where
  job : JobState
  nodeOffset : Nat

def Holder.bits (h : Holder) : Option Bitstr := (h.job.bitAlloc.bind fun places => places[h.nodeOffset]?).join

def Holder.has (i : Nat) (h : Holder) : Bool := h.bits.any fun b => bitTest b i

/-- The number of the job's devices in a set. -/
def Holder.held (gres : Bitstr) (h : Holder) : Nat := h.bits.elim 0 fun b => common b gres

/-- The last test said yes; `byCpus` if it looked at the devices of given processors only. -/
structure Ready where
  gresCnt : BitVec 32
  byCpus : Bool
deriving DecidableEq

structure State where
  node : NodeState
  jobs : List Holder
  ready : Option Ready

inductive Action
  | test (gresCnt : BitVec 32) (args : TestArgs)
  | alloc (job : JobState) (nodeCnt nodeOffset : Nat) (cores : Option Bitstr) (memory : Nat → BitVec 32)
  | dealloc (k : Nat)

/-- The job has a place for the node, and no devices there. -/
def Fresh (job : JobState) (nodeCnt nodeOffset : Nat) : Prop :=
  if job.nodeCnt = 0 then nodeOffset < nodeCnt
  else nodeOffset < job.nodeCnt ∧ (job.bitAlloc.bind fun places => places[nodeOffset]?) = some none

instance (job : JobState) (nodeCnt nodeOffset : Nat) : Decidable (Fresh job nodeCnt nodeOffset) :=
  inferInstanceAs (Decidable (ite _ _ _))

/-- The action may be taken: a job that is allocated was found to fit, and one that is deallocated is there. -/
def Enabled (s : State) : Action → Prop
  | .test _ _ => True
  | .alloc job nodeCnt nodeOffset _ _ => s.ready.map (·.gresCnt) = some job.cntAlloc ∧ Fresh job nodeCnt nodeOffset
  | .dealloc k => k < s.jobs.length

instance (s : State) : (a : Action) → Decidable (Enabled s a)
  | .test _ _ => inferInstanceAs (Decidable True)
  | .alloc _ _ _ _ _ => inferInstanceAs (Decidable (_ ∧ _))
  | .dealloc _ => inferInstanceAs (Decidable (_ < _))

def readyAfter (n : NodeState) (gresCnt : BitVec 32) (args : TestArgs) (cpuCnt : BitVec 32) : Option Ready :=
  if cpuCnt ≠ 0 ∧ args.useTotalGres = false then some ⟨gresCnt, args.topoSet && !n.topo.isEmpty⟩ else none

def act (s : State) : Action → Option State
  | .test gresCnt args => (jobTest s.node gresCnt args).map fun r =>
      ⟨r.node, s.jobs, readyAfter s.node gresCnt args r.cpuCnt⟩
  | .alloc job nodeCnt nodeOffset cores memory =>
    (jobAlloc s.node job nodeCnt nodeOffset cores memory).map fun (node, job, ok) =>
      ⟨node, if ok then ⟨job, nodeOffset⟩ :: s.jobs else s.jobs, none⟩
  | .dealloc k => (s.jobs[k]?).bind fun h => (jobDealloc s.node h.job h.nodeOffset).map fun (node, _) =>
      ⟨node, s.jobs.eraseIdx k, none⟩

def traffic : Machine State Action where
  step s a := if Enabled s a then act s a else none

/-! ## One allocation -/

/-- The bitmaps of the node's devices have a bit for each, and so have the counts without a topology. -/
def Regular (n : NodeState) : Prop :=
  ∀ b, n.bitAlloc = some b → n.cntAvail.toNat ≤ b.bits ∧ (∀ e ∈ n.entries, e.1.bits = n.cntAvail.toNat) ∧
    (n.topo = [] → n.cntConfig = n.cntAvail ∧ ∀ counts, n.devAlloc = some counts → counts.length = n.cntAvail.toNat)

/-- The topology is one for the job's cores: it has an entry for each device, and no entry of a device that the job
    may get is passed over. -/
def Affine (n : NodeState) (g : Nat) (cores : Option Bitstr) : Prop :=
  ∀ b, n.bitAlloc = some b → cores ≠ none → n.topo ≠ [] → n.cntAvail.toNat ≤ n.topo.length ∧
    ∀ i < n.cntAvail.toNat, Candidate cores n b g i → ∀ t ∈ n.topo, bitTest t.gres i = true → t.skipped cores = false

/-- The count of a device without a topology; an array that was not allocated yet stands for zeros. -/
def NodeState.count (n : NodeState) (i : Nat) : Nat := ((n.devAlloc.getD []).getD i 0).toNat

variable {n n' : NodeState} {job job' : JobState} {nodeCnt nodeOffset : Nat} {cores : Option Bitstr}
  {memory : Nat → BitVec 32} {b jb : Bitstr} {g : Nat}

theorem common_eq_zero {b1 b2 : Bitstr} (h : ∀ i, bitTest b1 i = true → bitTest b2 i = false) : common b1 b2 = 0 := by
  refine countP_eq_zero.2 fun i _ => ?_
  rw [and_eq_true]
  rintro ⟨h1, h2⟩
  rw [h i h1] at h2
  cases h2

theorem common_le (b1 b2 : Bitstr) : common b1 b2 ≤ setBelow b1 b1.bits :=
  countP_mono_left fun _ _ h => (and_eq_true _ _ ▸ h).1

/-- The counts of `n` in `n'`: those of the topology changed by `f`, and those of the devices by `op`. -/
structure Recounted (n n' : NodeState) (jb : Bitstr) (f : BitVec 32 → BitVec 32 → BitVec 32) (op : Nat → Nat → Nat) :
    Prop where
  topo : n'.topo = [] ↔ n.topo = []
  entries : n'.entries = n.entries.map fun e => (e.1, f e.2.1 (BitVec.ofNat 32 (common jb e.1)), e.2.2)
  counts : n.topo = [] → (∀ counts, n'.devAlloc = some counts → counts.length = n.cntAvail.toNat) ∧
    ∀ i, n'.count i = op (n.count i) (bitTest jb i).toNat

section Recount

variable {f : BitVec 32 → BitVec 32 → BitVec 32} {op : Nat → Nat → Nat}

theorem recounted_devices {counts : List (BitVec 32)} (htopo : n.topo = []) (hlen : counts.length = n.cntAvail.toNat)
    (hget : ∀ i, (counts.getD i 0).toNat = op (n.count i) (bitTest jb i).toNat) :
    Recounted n { n with devAlloc := some counts } jb f op := by
  refine ⟨Iff.rfl, by simp [NodeState.entries, htopo], fun _ => ⟨fun counts' hc => ?_, hget⟩⟩
  cases hc
  exact hlen

variable (hjb : jb.bits = n.cntAvail.toNat) (hentries : ∀ e ∈ n.entries, e.1.bits = n.cntAvail.toNat)
include hjb hentries

theorem recounted_topo {r : Topo → Topo} (htopo : n.topo ≠ []) (hr : ∀ t ∈ n.topo, jb.bits = t.gres.bits →
      r t = { t with cntAlloc := f t.cntAlloc (BitVec.ofNat 32 (common jb t.gres)) }) :
    Recounted n { n with topo := n.topo.map r } jb f op := by
  refine ⟨by simp, ?_, fun h => absurd h htopo⟩
  unfold NodeState.entries
  rw [List.map_map, List.map_map]
  refine List.map_congr_left fun t ht => ?_
  have hsize : jb.bits = t.gres.bits := hjb.trans (hentries _ (mem_map_of_mem ht)).symm
  simp only [Function.comp, hr t ht hsize]

variable
  (hdev : n.topo = [] → n.cntConfig = n.cntAvail ∧ ∀ counts, n.devAlloc = some counts → counts.length = n.cntAvail.toNat)
  (hbelow : ∀ i, bitTest jb i = true → i < n.cntAvail.toNat)
include hdev hbelow

theorem chargeTopo_eq (hskip : ∀ t ∈ n.topo, t.skipped cores = true → common jb t.gres = 0)
    (hzero : n.topo = [] → ∀ i, bitTest jb i = true → n.count i = 0) :
    ∃ topo devAlloc, chargeTopo n cores jb = some { n with topo := topo, devAlloc := devAlloc } ∧
      Recounted n { n with topo := topo, devAlloc := devAlloc } jb (· + ·) (· + ·) := by
  unfold chargeTopo
  by_cases htopo : n.topo = []
  · rw [if_neg (by simpa using htopo)]
    obtain ⟨hconfig, hlen⟩ := hdev htopo
    -- both lengths of the loop are the number of devices
    have hlen' : (n.devAlloc.getD (replicate jb.bits 0)).length = n.cntAvail.toNat := by
      cases hd : n.devAlloc with
      | none => simp [hjb]
      | some counts => exact hlen counts hd
    have hloop : (if n.devAlloc = none then jb.bits else min jb.bits n.cntConfig.toNat) = n.cntAvail.toNat := by
      rw [hconfig, hjb]
      split_ifs <;> simp
    have hrange : ∀ i < n.cntAvail.toNat, bitTest jb i = true →
        i < (n.devAlloc.getD (replicate jb.bits 0)).length := fun i hi _ => by rw [hlen']; exact hi
    obtain ⟨counts', hcount, hlength, hget⟩ := countDevices_eq (· + 1) hrange
    refine ⟨n.topo, some counts', ?_, recounted_devices htopo (hlength.trans hlen') fun i => ?_⟩
    · dsimp only
      rw [hloop, hcount]
      rfl
    · have hold : ((n.devAlloc.getD (replicate jb.bits 0)).getD i 0).toNat = n.count i := by
        unfold NodeState.count
        cases n.devAlloc with
        | none =>
          rw [getD_none, getD_eq_getElem?_getD, getElem?_replicate]
          split_ifs <;> rfl
        | some counts => rfl
      rw [hget]
      cases hi : bitTest jb i with
      | false => rw [if_neg (by simp), hold, toNat_false, Nat.add_zero]
      | true =>
        rw [if_pos ⟨hbelow i hi, rfl⟩, BitVec.toNat_add, hold, hzero htopo i hi]
        rfl
  · rw [if_pos htopo]
    refine ⟨n.topo.map (Topo.charge cores jb), n.devAlloc, rfl, recounted_topo hjb hentries htopo fun t ht hsize => ?_⟩
    rw [Topo.charge]
    by_cases hs : t.skipped cores = true
    · rw [if_pos (.inl hs), hskip t ht hs]
      simp
    · rw [if_neg (by simp [hs, hsize])]

theorem releaseTopo_eq : ∃ topo devAlloc, releaseTopo n jb = some { n with topo := topo, devAlloc := devAlloc } ∧
    Recounted n { n with topo := topo, devAlloc := devAlloc } jb subFloor (· - ·) := by
  unfold releaseTopo
  by_cases htopo : n.topo = []
  · rw [if_neg (by simpa using htopo)]
    obtain ⟨hconfig, hlen⟩ := hdev htopo
    cases hd : n.devAlloc with
    | none =>
      refine ⟨n.topo, n.devAlloc, rfl, Iff.rfl, by simp [NodeState.entries, htopo], fun _ => ⟨hlen, fun i => ?_⟩⟩
      simp [NodeState.count, hd]
    | some counts =>
      have hrange : ∀ i < n.cntConfig.toNat, bitTest jb i = true → i < counts.length := fun i hi _ => by
        rw [hlen counts hd, ← hconfig]
        exact hi
      obtain ⟨counts', hcount, hlength, hget⟩ := countDevices_eq decNonzero hrange
      refine ⟨n.topo, some counts', ?_, recounted_devices htopo (hlength.trans (hlen counts hd)) fun i => ?_⟩
      · dsimp only
        rw [if_neg (by rw [hjb, hconfig]; omega), hcount]
        rfl
      · have hold : (counts.getD i 0).toNat = n.count i := by rw [NodeState.count, hd, getD_some]
        rw [hget, hconfig]
        cases hi : bitTest jb i with
        | false => rw [if_neg (by simp), hold, toNat_false, Nat.sub_zero]
        | true => rw [if_pos ⟨hbelow i hi, rfl⟩, toNat_decNonzero_sub (by decide), hold, toNat_true]
  · rw [if_pos htopo]
    refine ⟨n.topo.map (Topo.release jb), n.devAlloc, rfl, recounted_topo hjb hentries htopo fun t ht hsize => ?_⟩
    rw [Topo.release, if_neg (by simp [hsize])]

end Recount

structure Placed (job job' : JobState) (nodeOffset : Nat) (bits : Option Bitstr) : Prop where
  cnt : job'.cntAlloc = job.cntAlloc
  offset : nodeOffset < job'.nodeCnt
  place : (job'.bitAlloc.bind fun places => places[nodeOffset]?) = some bits

theorem Fresh.place (h : Fresh job nodeCnt nodeOffset) : ∃ places, (job.prepare nodeCnt).bitAlloc = some places ∧
    places[nodeOffset]? = some none ∧ nodeOffset < (job.prepare nodeCnt).nodeCnt ∧
    (job.prepare nodeCnt).cntAlloc = job.cntAlloc ∧
    ¬(job.nodeCnt ≠ 0 ∧ job.nodeCnt < nodeCnt ∧ job.nodeCnt ≤ nodeOffset) := by
  unfold JobState.prepare
  by_cases h0 : job.nodeCnt = 0
  · rw [Fresh, if_pos h0] at h
    rw [if_pos h0]
    exact ⟨_, rfl, getElem?_replicate_of_lt h, h, rfl, fun hc => hc.1 h0⟩
  · rw [Fresh, if_neg h0] at h
    rw [if_neg h0]
    obtain ⟨places, hp, hget⟩ := bind_eq_some_iff.1 h.2
    exact ⟨places, hp, hget, h.1, rfl, fun hc => by omega⟩

theorem jobAlloc_of (h : Fresh job nodeCnt nodeOffset) {bits : Option Bitstr} {n1 : NodeState}
    (hdev : allocDevices n job.cntAlloc none cores memory = some (n1, bits))
    (htopo : chargeJob n1 cores bits = some n') :
    ∃ job', jobAlloc n job nodeCnt nodeOffset cores memory = some (n', job', true) ∧ Placed job job' nodeOffset bits := by
  obtain ⟨places, hplaces, hget, hoffset, hcnt, hno⟩ := h.place
  refine ⟨{ job.prepare nodeCnt with bitAlloc := some (places.set nodeOffset bits) }, ?_, hcnt, hoffset, ?_⟩
  · unfold jobAlloc
    rw [if_neg hno]
    dsimp only
    rw [hplaces, Option.bind_some, hget, Option.bind_some, hcnt, hdev, Option.bind_some]
    rw [htopo]
    rfl
  · have hlt : nodeOffset < places.length := (List.getElem?_eq_some_iff.1 hget).1
    rw [Option.bind_some, List.getElem?_set_self hlt]

theorem allocDevices_plain {gresCnt : BitVec 32} (hb : n.bitAlloc = none) :
    allocDevices n gresCnt none cores memory = some ({ n with cntAlloc := n.cntAlloc + gresCnt }, none) := by
  unfold allocDevices
  split
  · next h _ => nomatch h
  · next h _ => nomatch h
  · next h => exact absurd (hb.symm.trans h) (by simp)
  · rfl

/-- What a job of `g` devices changes on a node with a bitmap. -/
structure Got (n n' : NodeState) (b jb : Bitstr) (g : Nat) : Prop where
  bits : ∃ b', n'.bitAlloc = some b' ∧ b'.bits = b.bits ∧ ∀ i, bitTest b' i = (bitTest b i || bitTest jb i)
  jobBits : jb.bits = n.cntAvail.toNat
  free : ∀ i, bitTest jb i = true → bitTest b i = false
  below : ∀ i, bitTest jb i = true → i < n.cntAvail.toNat
  exact : setBelow jb n.cntAvail.toNat = g
  alloc : n'.cntAlloc.toNat = n.cntAlloc.toNat + g
  config : n'.cntConfig = n.cntConfig
  avail : n'.cntAvail = n.cntAvail
  topo : n'.topo = [] ↔ n.topo = []
  entries : n'.entries = n.entries.map fun e => (e.1, e.2.1 + BitVec.ofNat 32 (common jb e.1), e.2.2)
  counts : n.topo = [] → (∀ counts, n'.devAlloc = some counts → counts.length = n.cntAvail.toNat) ∧
    ∀ i, n'.count i = n.count i + (bitTest jb i).toNat

theorem jobAlloc_eq (hfresh : Fresh job nodeCnt nodeOffset) (hb : n.bitAlloc = some b) (hreg : Regular n)
    (haff : Affine n job.cntAlloc.toNat cores) (hsum : setBelow b n.cntAvail.toNat = n.cntAlloc.toNat)
    (hfit : n.cntAlloc.toNat + job.cntAlloc.toNat ≤ n.cntAvail.toNat)
    (hcount : n.topo = [] → ∀ i, bitTest b i = false → n.count i = 0) :
    ∃ n' job' jb, jobAlloc n job nodeCnt nodeOffset cores memory = some (n', job', true) ∧
      Placed job job' nodeOffset (some jb) ∧ Got n n' b jb job.cntAlloc.toNat := by
  obtain ⟨hsize, hentries, hdev⟩ := hreg b hb
  have h31 := b.bits_lt
  obtain ⟨empty, hempty⟩ : ∃ empty, bitAlloc n.cntAvail.toNat = some empty := ⟨_, dif_pos (by omega)⟩
  have hnone := bitTest_bitAlloc hempty
  have hzero : setBelow empty n.cntAvail.toNat = 0 := countP_eq_zero.2 fun i _ => by rw [hnone]; simp
  have hstart : Taking b n.cntAvail.toNat n.cntAlloc.toNat job.cntAlloc.toNat ⟨b, empty, n.cntAlloc, job.cntAlloc⟩ :=
    ⟨rfl, bits_bitAlloc hempty, fun i => by simp [hnone], fun i hi => by simp [hnone] at hi,
      fun i hi => by simp [hnone] at hi, by simp [hzero], by simp [hzero]⟩
  have hcores : ∀ i < n.cntAvail.toNat, coresOnGres cores n i ≠ none := fun i hi => by
    unfold coresOnGres
    cases hc : cores with
    | none => simp
    | some c =>
      dsimp only
      by_cases ht : n.topo = []
      · simp [ht]
      · have hle := (haff b hb (by simp [hc]) ht).1
        rw [if_neg ht, getElem?_eq_getElem (by omega)]
        simp
  obtain ⟨p, hpick, htake, hdone, hcand⟩ := pickDevices_eq hstart hnone hsize (by omega) hcores (by omega)
  have hleft := htake.wanted
  rw [hdone] at hleft
  have hdevices : allocDevices n job.cntAlloc none cores memory =
      some ({ n with bitAlloc := some p.node, cntAlloc := p.cntAlloc }, some p.job) := by
    unfold allocDevices
    rw [hb]
    dsimp only
    rw [hempty, Option.bind_some, if_neg (by omega), Option.bind_some, hpick]
    rfl
  have hskip : ∀ t ∈ n.topo, t.skipped cores = true → common p.job t.gres = 0 := fun t ht hs =>
    common_eq_zero fun i hi => by
      have hne : cores ≠ none := by
        rintro rfl
        simp [Topo.skipped] at hs
      have hno := (haff b hb hne (ne_nil_of_mem ht)).2 i (htake.below i hi) (hcand i hi) t ht
      cases hg : bitTest t.gres i with
      | false => rfl
      | true =>
        rw [hno hg] at hs
        cases hs
  have hzero : n.topo = [] → ∀ i, bitTest p.job i = true → n.count i = 0 := fun ht i hi =>
    hcount ht i (htake.free i hi)
  obtain ⟨topo, devAlloc, hcharge, htopo, hent, hcnt⟩ :=
    chargeTopo_eq (n := { n with bitAlloc := some p.node, cntAlloc := p.cntAlloc })
      htake.jobBits hentries hdev htake.below hskip hzero
  obtain ⟨job', halloc, hplaced⟩ := jobAlloc_of hfresh hdevices hcharge
  refine ⟨_, job', p.job, halloc, hplaced, ⟨p.node, rfl, htake.nodeBits, htake.node⟩, htake.jobBits, htake.free,
    htake.below, by simpa using hleft, ?_, rfl, rfl, htopo, hent, hcnt⟩
  have := htake.counted
  simp at hleft
  show p.cntAlloc.toNat = _
  omega

/-! ## One deallocation -/

/-- What a job with the devices `jb` takes away from the counts. -/
structure Gave (n n' : NodeState) (b jb : Bitstr) : Prop where
  bits : ∃ b', n'.bitAlloc = some b' ∧ b'.bits = b.bits ∧ ∀ i, bitTest b' i = (bitTest b i && !bitTest jb i)
  alloc : n'.cntAlloc.toNat = n.cntAlloc.toNat - setBelow jb n.cntAvail.toNat
  config : n'.cntConfig = n.cntConfig
  avail : n'.cntAvail = n.cntAvail
  topo : n'.topo = [] ↔ n.topo = []
  entries : n'.entries = n.entries.map fun e => (e.1, subFloor e.2.1 (BitVec.ofNat 32 (common jb e.1)), e.2.2)
  counts : n.topo = [] → (∀ counts, n'.devAlloc = some counts → counts.length = n.cntAvail.toNat) ∧
    ∀ i, n'.count i = n.count i - (bitTest jb i).toNat

variable {h : Holder}

theorem jobDealloc_eq (hoffset : h.nodeOffset < h.job.nodeCnt)
    (hplace : (h.job.bitAlloc.bind fun places => places[h.nodeOffset]?) = some (some jb))
    (hb : n.bitAlloc = some b) (hreg : Regular n) (hjb : jb.bits = n.cntAvail.toNat)
    (hbelow : ∀ i, bitTest jb i = true → i < n.cntAvail.toNat) :
    ∃ n', jobDealloc n h.job h.nodeOffset = some (n', true) ∧ Gave n n' b jb := by
  obtain ⟨hsize, hentries, hdev⟩ := hreg b hb
  obtain ⟨places, hplaces, hget⟩ := bind_eq_some_iff.1 hplace
  have hmin : min jb.bits b.bits = n.cntAvail.toNat := by omega
  have his : ∀ i ∈ range n.cntAvail.toNat, i < b.bits := fun i hi => by
    have := mem_range.1 hi
    omega
  obtain ⟨b', cnt, hfree, hbits, htest, hcnt⟩ := freeDevices_eq jb n.cntAlloc his
  obtain ⟨topo, devAlloc, hrel, htopo, hent, hcounts⟩ :=
    releaseTopo_eq (n := { n with bitAlloc := some b', cntAlloc := cnt }) hjb hentries hdev hbelow
  refine ⟨{ n with bitAlloc := some b', cntAlloc := cnt, topo := topo, devAlloc := devAlloc }, ?_,
    ⟨b', rfl, hbits, fun i => ?_⟩, hcnt, rfl, rfl, htopo, hent, hcounts⟩
  · unfold jobDealloc
    rw [if_neg (by omega), hplaces]
    dsimp only
    rw [hget, Option.bind_some]
    rw [hb]
    dsimp only
    rw [hmin, hfree, map_some, Option.bind_some]
    rw [hrel]
    rfl
  · rw [htest]
    have hi : (decide (i ∈ range n.cntAvail.toNat) && bitTest jb i) = bitTest jb i := by
      cases hj : bitTest jb i with
      | false => simp
      | true => simpa using hbelow i hj
    rw [hi]

/-! ## Conservation -/

structure Idle (n : NodeState) : Prop where
  alloc : n.cntAlloc = 0
  bits : ∀ b, n.bitAlloc = some b → ∀ i, bitTest b i = false
  entries : ∀ e ∈ n.entries, e.2.1 = 0
  counts : n.topo = [] → ∀ i, n.count i = 0

/-- The node is as it was, but for the processors of its topology, which a test may have adapted. -/
structure Restored (n₀ n : NodeState) : Prop where
  config : n.cntConfig = n₀.cntConfig
  avail : n.cntAvail = n₀.cntAvail
  alloc : n.cntAlloc = n₀.cntAlloc
  bits : n.bitAlloc = n₀.bitAlloc
  entries : n.entries = n₀.entries
  counts : n₀.topo = [] → ∀ i, n.count i = n₀.count i

structure Conserved (n₀ : NodeState) (s : State) : Prop where
  /-- no device belongs to two jobs -/
  apart : ∀ (k m : Nat) (h h' : Holder) (i : Nat), s.jobs[k]? = some h → s.jobs[m]? = some h' →
    h.has i = true → h'.has i = true → k = m
  /-- each job has as many devices as it wants -/
  exact : s.node.bitAlloc ≠ none → ∀ h ∈ s.jobs, ∃ jb, h.bits = some jb ∧ setBelow jb jb.bits = h.job.cntAlloc.toNat
  total : s.node.cntAlloc.toNat = (s.jobs.map (·.job.cntAlloc.toNat)).sum
  bound : s.node.cntAlloc.toNat ≤ s.node.cntAvail.toNat
  topo : ∀ e ∈ s.node.entries, e.2.1.toNat = (s.jobs.map (Holder.held e.1)).sum
  restored : s.jobs = [] → Restored n₀ s.node

structure Inv (n₀ : NodeState) (s : State) : Prop where
  config : s.node.cntConfig = n₀.cntConfig
  avail : s.node.cntAvail = n₀.cntAvail
  shape : s.node.entries.map (fun e => (e.1, e.2.2)) = n₀.entries.map fun e => (e.1, e.2.2)
  bitmap : s.node.bitAlloc.map Bitstr.bits = n₀.bitAlloc.map Bitstr.bits
  regular : s.jobs ≠ [] → Regular s.node
  placed : ∀ h ∈ s.jobs, h.nodeOffset < h.job.nodeCnt ∧
    (h.job.bitAlloc.bind fun places => places[h.nodeOffset]?) = some h.bits
  total : s.node.cntAlloc.toNat = (s.jobs.map (·.job.cntAlloc.toNat)).sum
  bound : s.node.cntAlloc.toNat ≤ s.node.cntAvail.toNat
  plain : s.node.bitAlloc = none → ∀ h ∈ s.jobs, h.bits = none
  exact : s.node.bitAlloc ≠ none → ∀ h ∈ s.jobs, ∃ jb, h.bits = some jb ∧ jb.bits = s.node.cntAvail.toNat ∧
    (∀ i, bitTest jb i = true → i < s.node.cntAvail.toNat) ∧
    setBelow jb s.node.cntAvail.toNat = h.job.cntAlloc.toNat
  bits : ∀ b, s.node.bitAlloc = some b → ∀ i, (bitTest b i).toNat = s.jobs.countP (Holder.has i)
  topo : ∀ e ∈ s.node.entries, e.2.1.toNat = (s.jobs.map (Holder.held e.1)).sum
  counts : s.node.topo = [] → ∀ i, s.node.count i = s.jobs.countP (Holder.has i)
  ready : ∀ r, s.ready = some r → r.byCpus = false → s.node.cntAlloc.toNat + r.gresCnt.toNat ≤ s.node.cntAvail.toNat

variable {n₀ : NodeState} {s s' : State}

theorem entries_eq_nil : n.entries = [] ↔ n.topo = [] := map_eq_nil_iff

theorem inv_init (h : Idle n₀) : Inv n₀ ⟨n₀, [], none⟩ where
  config := rfl
  avail := rfl
  shape := rfl
  bitmap := rfl
  regular := fun h => absurd rfl h
  placed := nofun
  total := by simp [h.alloc]
  bound := by simp [h.alloc]
  plain := fun _ => nofun
  exact := fun _ => nofun
  bits := fun b hb i => by simp [h.bits b hb i]
  topo := fun e he => by simp [h.entries e he]
  counts := fun ht i => by simp [h.counts ht i]
  ready := nofun

theorem Inv.conserved (h : Inv n₀ s) (hidle : Idle n₀) : Conserved n₀ s where
  apart k m j j' i hk hm hj hj' := by
    cases hb : s.node.bitAlloc with
    | none =>
      have hbits := h.plain hb j (mem_of_getElem? hk)
      simp [Holder.has, hbits] at hj
    | some b =>
      refine index_unique ?_ hk hm hj hj'
      rw [← h.bits b hb i]
      exact toNat_le _
  exact hb j hj := by
    obtain ⟨jb, hbits, hsize, -, hcnt⟩ := h.exact hb j hj
    exact ⟨jb, hbits, by rw [hsize, hcnt]⟩
  total := h.total
  bound := h.bound
  topo := h.topo
  restored hnil := by
    have htopo : ∀ e ∈ s.node.entries, e.2.1 = 0 := fun e he => by
      refine BitVec.eq_of_toNat_eq ?_
      rw [h.topo e he, hnil]
      rfl
    refine ⟨h.config, h.avail, ?_, ?_, ?_, fun ht i => ?_⟩
    · rw [hidle.alloc]
      refine BitVec.eq_of_toNat_eq ?_
      rw [h.total, hnil]
      rfl
    · -- both bitmaps are of one size and clear
      have hsize := h.bitmap
      cases hb : s.node.bitAlloc with
      | none =>
        rw [hb] at hsize
        exact (map_eq_none_iff.1 hsize.symm).symm
      | some b =>
        rw [hb] at hsize
        obtain ⟨b0, hb0, hbits⟩ := map_eq_some_iff.1 hsize.symm
        rw [hb0]
        refine congrArg some (ext_bitTest hbits.symm fun i => ?_)
        have hclear := h.bits b hb i
        rw [hnil, countP_nil] at hclear
        rw [hidle.bits b0 hb0 i]
        exact toNat_eq_zero.1 hclear
    · have hmap : ∀ l : List (Bitstr × BitVec 32 × BitVec 32), (∀ e ∈ l, e.2.1 = 0) →
          l = (l.map fun e => (e.1, e.2.2)).map fun e => (e.1, 0, e.2) := fun l hl => by
        rw [List.map_map]
        refine (List.map_id l).symm.trans (List.map_congr_left fun e he => ?_)
        simp [← hl e he]
      rw [hmap _ htopo, hmap _ hidle.entries, h.shape]
    · have ht' : s.node.topo = [] := by
        have hlen := congrArg length h.shape
        simp only [length_map, entries_eq_nil.2 ht, length_nil] at hlen
        exact entries_eq_nil.1 (length_eq_zero_iff.1 hlen)
      rw [h.counts ht' i, hnil, hidle.counts ht i]
      rfl

theorem SameButCpus.topo_eq_nil (h : SameButCpus n n') : n'.topo = [] ↔ n.topo = [] := by
  obtain ⟨topo, -, hent⟩ := h
  rw [← entries_eq_nil, ← entries_eq_nil, hent]

theorem inv_test (h : Inv n₀ s) {gresCnt : BitVec 32} {args : TestArgs} {r : TestResult}
    (htest : jobTest s.node gresCnt args = some r) :
    Inv n₀ ⟨r.node, s.jobs, readyAfter s.node gresCnt args r.cpuCnt⟩ := by
  have hnil := (jobTest_same htest).topo_eq_nil
  have hfits := jobTest_fits htest
  obtain ⟨topo, hnode, hent⟩ := jobTest_same htest
  obtain ⟨node, cpus, topoSet, cpuCnt⟩ := r
  dsimp only at hnode hent hnil
  subst hnode
  refine { h with shape := ?_, regular := fun hjobs b hb => ?_, topo := ?_, counts := ?_, ready := fun rd hrd hby => ?_ }
  · rw [hent]
    exact h.shape
  · rw [hent, hnil]
    exact h.regular hjobs b hb
  · rw [hent]
    exact h.topo
  · rw [hnil]
    exact h.counts
  · unfold readyAfter at hrd
    split_ifs at hrd with hok
    cases hrd
    refine hfits hok.1 hok.2 ?_ h.bound
    rw [and_eq_false_iff] at hby
    exact hby.imp_right fun he => by simpa using he

theorem Inv.setBelow_eq (h : Inv n₀ s) (hb : s.node.bitAlloc = some b) :
    setBelow b s.node.cntAvail.toNat = s.node.cntAlloc.toNat := by
  have hne : s.node.bitAlloc ≠ none := by simp [hb]
  have hsum : ∀ h' ∈ s.jobs, (range s.node.cntAvail.toNat).countP (fun i => Holder.has i h') =
      h'.job.cntAlloc.toNat := fun h' hm => by
    obtain ⟨jb, hbits, -, -, hcnt⟩ := h.exact hne h' hm
    rw [← hcnt, setBelow]
    exact countP_congr fun i _ => by simp [Holder.has, hbits]
  calc setBelow b s.node.cntAvail.toNat
      = ((range s.node.cntAvail.toNat).map fun i => s.jobs.countP (Holder.has i)).sum := by
        rw [setBelow, countP_eq_sum]
        refine congrArg sum (List.map_congr_left fun i _ => ?_)
        rw [← h.bits b hb i]
        cases bitTest b i <;> rfl
    _ = (s.jobs.map fun h' => (range s.node.cntAvail.toNat).countP fun i => Holder.has i h').sum :=
        sum_countP_comm _ _
    _ = (s.jobs.map (·.job.cntAlloc.toNat)).sum := congrArg sum (List.map_congr_left hsum)
    _ = s.node.cntAlloc.toNat := h.total.symm

theorem Placed.bits {bits : Option Bitstr} (h : Placed job job' nodeOffset bits) :
    Holder.bits ⟨job', nodeOffset⟩ = bits := by
  rw [Holder.bits, h.place]
  rfl

/-- What the alloc step needs beside the test: a regular node with a topology for the job's cores, and, if the test
    looked at given processors only, enough free devices. -/
def Sound (s : State) : Action → Prop
  | .alloc job _ _ cores _ => Regular s.node ∧ Affine s.node job.cntAlloc.toNat cores ∧
      (s.ready.any (·.byCpus) = true → s.node.cntAlloc.toNat + job.cntAlloc.toNat ≤ s.node.cntAvail.toNat)
  | _ => True

theorem Inv.fits (h : Inv n₀ s) (hen : s.ready.map (·.gresCnt) = some job.cntAlloc)
    (hs : s.ready.any (·.byCpus) = true → s.node.cntAlloc.toNat + job.cntAlloc.toNat ≤ s.node.cntAvail.toNat) :
    s.node.cntAlloc.toNat + job.cntAlloc.toNat ≤ s.node.cntAvail.toNat := by
  obtain ⟨r, hr, hcnt⟩ := map_eq_some_iff.1 hen
  cases hby : r.byCpus with
  | false =>
    rw [← hcnt]
    exact h.ready r hr hby
  | true => exact hs (by simp [hr, hby])

theorem inv_alloc_plain (h : Inv n₀ s) (hb : s.node.bitAlloc = none) (hreg : Regular s.node)
    (hfit : s.node.cntAlloc.toNat + job.cntAlloc.toNat ≤ s.node.cntAvail.toNat) (hp : Placed job job' nodeOffset none) :
    Inv n₀ ⟨{ s.node with cntAlloc := s.node.cntAlloc + job.cntAlloc }, ⟨job', nodeOffset⟩ :: s.jobs, none⟩ := by
  have hcnt : (s.node.cntAlloc + job.cntAlloc).toNat = s.node.cntAlloc.toNat + job.cntAlloc.toNat := by
    rw [BitVec.toNat_add]
    omega
  have hhas : ∀ i, Holder.has i ⟨job', nodeOffset⟩ = false := fun i => by simp [Holder.has, hp.bits]
  have hheld : ∀ gres, Holder.held gres ⟨job', nodeOffset⟩ = 0 := fun gres => by simp [Holder.held, hp.bits]
  refine { h with
    regular := fun _ => hreg, placed := forall_mem_cons.2 ⟨⟨hp.offset, by rw [hp.bits]; exact hp.place⟩, h.placed⟩
    total := ?_, bound := hcnt.trans_le hfit, plain := fun _ => forall_mem_cons.2 ⟨hp.bits, h.plain hb⟩
    exact := fun hne => absurd hb hne, bits := fun b hb' => ?_, topo := fun e he => ?_, counts := fun ht i => ?_
    ready := nofun }
  · rw [List.map_cons, List.sum_cons, ← h.total, hp.cnt, Nat.add_comm]
    exact hcnt
  · cases hb.symm.trans hb'
  · rw [List.map_cons, List.sum_cons, hheld, Nat.zero_add]
    exact h.topo e he
  · rw [countP_cons_of_neg (by simp [hhas])]
    exact h.counts ht i

theorem Inv.held_le (h : Inv n₀ s) (gres : Bitstr) {h' : Holder} (hm : h' ∈ s.jobs) :
    h'.held gres ≤ h'.job.cntAlloc.toNat := by
  cases hb : s.node.bitAlloc with
  | none => simp [Holder.held, h.plain hb h' hm]
  | some b =>
    obtain ⟨jb, hbits, hsize, -, hcnt⟩ := h.exact (by simp [hb]) h' hm
    have hle := common_le jb gres
    rw [hsize, hcnt] at hle
    simpa [Holder.held, hbits] using hle

theorem Regular.recounted {b' : Bitstr} {f : BitVec 32 → BitVec 32 → BitVec 32} {op : Nat → Nat → Nat} (h : Regular n)
    (hb : n.bitAlloc = some b) (hb' : n'.bitAlloc = some b') (hbits : b'.bits = b.bits)
    (hconfig : n'.cntConfig = n.cntConfig) (havail : n'.cntAvail = n.cntAvail) (hr : Recounted n n' jb f op) :
    Regular n' := by
  obtain ⟨hsize, hentries, hdev⟩ := h b hb
  intro b'' hb''
  cases hb'.symm.trans hb''
  rw [havail, hconfig, hr.topo, hr.entries, hbits]
  refine ⟨hsize, fun e he => ?_, fun ht => ⟨(hdev ht).1, (hr.counts ht).1⟩⟩
  obtain ⟨e', he', rfl⟩ := mem_map.1 he
  exact hentries e' he'

theorem inv_alloc_bits (h : Inv n₀ s) (hb : s.node.bitAlloc = some b) (hreg : Regular s.node)
    (hfit : s.node.cntAlloc.toNat + job.cntAlloc.toNat ≤ s.node.cntAvail.toNat)
    (hp : Placed job job' nodeOffset (some jb)) (hgot : Got s.node n' b jb job.cntAlloc.toNat) :
    Inv n₀ ⟨n', ⟨job', nodeOffset⟩ :: s.jobs, none⟩ := by
  obtain ⟨b', hb', hbits, htest⟩ := hgot.bits
  have hhas : ∀ i, Holder.has i ⟨job', nodeOffset⟩ = bitTest jb i := fun i => by simp [Holder.has, hp.bits]
  have hheld : ∀ gres, Holder.held gres ⟨job', nodeOffset⟩ = common jb gres := fun gres => by
    simp [Holder.held, hp.bits]
  have hcountP : ∀ i, (Holder.mk job' nodeOffset :: s.jobs).countP (Holder.has i) =
      s.jobs.countP (Holder.has i) + (bitTest jb i).toNat := fun i => by
    rw [countP_cons, hhas]
    cases bitTest jb i <;> rfl
  constructor
  · exact hgot.config.trans h.config
  · exact hgot.avail.trans h.avail
  · rw [hgot.entries, List.map_map]
    exact h.shape
  · rw [hb', map_some, hbits, ← h.bitmap, hb, map_some]
  · exact fun _ => hreg.recounted hb hb' hbits hgot.config hgot.avail ⟨hgot.topo, hgot.entries, hgot.counts⟩
  · exact forall_mem_cons.2 ⟨⟨hp.offset, by rw [hp.bits]; exact hp.place⟩, h.placed⟩
  · rw [List.map_cons, List.sum_cons, ← h.total, hp.cnt, hgot.alloc, Nat.add_comm]
  · rw [hgot.alloc, hgot.avail]
    exact hfit
  · intro hnone
    cases hb'.symm.trans hnone
  · intro _
    rw [hgot.avail]
    exact forall_mem_cons.2 ⟨⟨jb, hp.bits, hgot.jobBits, hgot.below, by rw [hgot.exact, hp.cnt]⟩,
      h.exact (by simp [hb])⟩
  · intro b'' hb'' i
    cases hb'.symm.trans hb''
    rw [hcountP, ← h.bits b hb i, htest]
    have hfree := hgot.free i
    cases h1 : bitTest jb i with
    | false => simp
    | true =>
      rw [hfree h1]
      rfl
  · intro e he
    rw [hgot.entries] at he
    obtain ⟨e', he', rfl⟩ := mem_map.1 he
    -- the count does not wrap: no entry holds more than the node
    have hsum : (s.jobs.map (Holder.held e'.1)).sum ≤ s.node.cntAlloc.toNat := by
      rw [h.total]
      exact sum_le_sum fun h' hm => h.held_le e'.1 hm
    have hle := common_le jb e'.1
    rw [hgot.jobBits, hgot.exact] at hle
    rw [← h.topo e' he'] at hsum
    dsimp only
    rw [List.map_cons, List.sum_cons, hheld, ← h.topo e' he', BitVec.toNat_add, BitVec.toNat_ofNat]
    omega
  · intro ht i
    have ht' := hgot.topo.1 ht
    rw [hcountP, (hgot.counts ht').2, h.counts ht' i]
  · nofun

theorem inv_alloc (h : Inv n₀ s) (hen : Enabled s (.alloc job nodeCnt nodeOffset cores memory))
    (hs : Sound s (.alloc job nodeCnt nodeOffset cores memory)) :
    ∃ n' job', jobAlloc s.node job nodeCnt nodeOffset cores memory = some (n', job', true) ∧
      Inv n₀ ⟨n', ⟨job', nodeOffset⟩ :: s.jobs, none⟩ := by
  obtain ⟨hready, hfresh⟩ := hen
  obtain ⟨hreg, haff, hby⟩ := hs
  have hfit := h.fits hready hby
  cases hb : s.node.bitAlloc with
  | none =>
    obtain ⟨job', halloc, hp⟩ := jobAlloc_of hfresh (allocDevices_plain hb) rfl
    exact ⟨_, job', halloc, inv_alloc_plain h hb hreg hfit hp⟩
  | some b =>
    have hcount : s.node.topo = [] → ∀ i, bitTest b i = false → s.node.count i = 0 := fun ht i hi => by
      rw [h.counts ht i, ← h.bits b hb i, hi]
      rfl
    obtain ⟨n', job', jb, halloc, hp, hgot⟩ := jobAlloc_eq hfresh hb hreg haff (h.setBelow_eq hb) hfit hcount
    exact ⟨n', job', halloc, inv_alloc_bits h hb hreg hfit hp hgot⟩

theorem sum_eraseIdx {k : Nat} (hk : s.jobs[k]? = some h) (f : Holder → Nat) :
    (s.jobs.map f).sum = f h + ((s.jobs.eraseIdx k).map f).sum := by
  obtain ⟨hlt, rfl⟩ := List.getElem?_eq_some_iff.1 hk
  rw [← ((List.getElem_cons_eraseIdx_perm hlt).map f).sum_eq, List.map_cons, List.sum_cons]

theorem countP_eraseIdx {k : Nat} (hk : s.jobs[k]? = some h) (i : Nat) :
    s.jobs.countP (Holder.has i) = (Holder.has i h).toNat + (s.jobs.eraseIdx k).countP (Holder.has i) := by
  rw [countP_eq_sum, countP_eq_sum, sum_eraseIdx hk]
  cases Holder.has i h <;> rfl

theorem toNat_and_not {x y : Bool} {c : Nat} (h : y.toNat = x.toNat + c) : (y && !x).toNat = c := by
  cases x <;> cases y <;> simp at h ⊢ <;> omega

theorem inv_dealloc (hinv : Inv n₀ s) {k : Nat} (hk : s.jobs[k]? = some h) :
    ∃ n', jobDealloc s.node h.job h.nodeOffset = some (n', true) ∧ Inv n₀ ⟨n', s.jobs.eraseIdx k, none⟩ := by
  have hmem := mem_of_getElem? hk
  have hrest : ∀ h' ∈ s.jobs.eraseIdx k, h' ∈ s.jobs := fun h' hm => mem_of_mem_eraseIdx hm
  have hreg := hinv.regular (ne_nil_of_mem hmem)
  obtain ⟨hoffset, hplace⟩ := hinv.placed h hmem
  have htotal := hinv.total
  rw [sum_eraseIdx hk] at htotal
  have hbound := hinv.bound
  cases hb : s.node.bitAlloc with
  | none =>
    have hnone := hinv.plain hb h hmem
    rw [hnone] at hplace
    obtain ⟨places, hplaces, hget⟩ := bind_eq_some_iff.1 hplace
    have hdealloc : jobDealloc s.node h.job h.nodeOffset =
        some ({ s.node with cntAlloc := subFloor s.node.cntAlloc h.job.cntAlloc }, true) := by
      unfold jobDealloc
      rw [if_neg (by omega), hplaces]
      dsimp only
      rw [hget]
      rfl
    have hcnt := toNat_subFloor s.node.cntAlloc h.job.cntAlloc
    refine ⟨_, hdealloc, { hinv with
      regular := fun _ => hreg, placed := fun h' hm => hinv.placed h' (hrest h' hm), total := by dsimp only; omega
      bound := by dsimp only; omega, plain := fun _ h' hm => hinv.plain hb h' (hrest h' hm)
      exact := fun hne => absurd hb hne, bits := fun b hb' => ?_, topo := fun e he => ?_, counts := fun ht i => ?_
      ready := nofun }⟩
    · cases hb.symm.trans hb'
    · have hheld : h.held e.1 = 0 := by simp [Holder.held, hnone]
      have htopo := hinv.topo e he
      rw [sum_eraseIdx hk, hheld, Nat.zero_add] at htopo
      exact htopo
    · have hhas : Holder.has i h = false := by simp [Holder.has, hnone]
      have hcount := hinv.counts ht i
      rw [countP_eraseIdx hk, hhas, toNat_false, Nat.zero_add] at hcount
      exact hcount
  | some b =>
    obtain ⟨jb, hjbits, hsize, hbelow, hexact⟩ := hinv.exact (by simp [hb]) h hmem
    rw [hjbits] at hplace
    obtain ⟨n', hdealloc, hgave⟩ := jobDealloc_eq hoffset hplace hb hreg hsize hbelow
    obtain ⟨b', hb', hbits, htest⟩ := hgave.bits
    have hhas : ∀ i, Holder.has i h = bitTest jb i := fun i => by simp [Holder.has, hjbits]
    have halloc := hgave.alloc
    rw [hexact] at halloc
    refine ⟨n', hdealloc, ?_⟩
    constructor
    · exact hgave.config.trans hinv.config
    · exact hgave.avail.trans hinv.avail
    · rw [hgave.entries, List.map_map]
      exact hinv.shape
    · rw [hb', map_some, hbits, ← hinv.bitmap, hb, map_some]
    · exact fun _ => hreg.recounted hb hb' hbits hgave.config hgave.avail ⟨hgave.topo, hgave.entries, hgave.counts⟩
    · exact fun h' hm => hinv.placed h' (hrest h' hm)
    · dsimp only
      omega
    · rw [halloc, hgave.avail]
      omega
    · intro hnone
      cases hb'.symm.trans hnone
    · intro _ h' hm
      rw [hgave.avail]
      exact hinv.exact (by simp [hb]) h' (hrest h' hm)
    · intro b'' hb'' i
      cases hb'.symm.trans hb''
      have hcount := hinv.bits b hb i
      rw [countP_eraseIdx hk, hhas] at hcount
      rw [htest]
      exact toNat_and_not hcount
    · intro e he
      rw [hgave.entries] at he
      obtain ⟨e', he', rfl⟩ := mem_map.1 he
      have hheld : h.held e'.1 = common jb e'.1 := by simp [Holder.held, hjbits]
      have htopo := hinv.topo e' he'
      rw [sum_eraseIdx hk, hheld] at htopo
      dsimp only
      rw [toNat_subFloor, BitVec.toNat_ofNat]
      omega
    · intro ht i
      have ht' := hgave.topo.1 ht
      have hcount := hinv.counts ht' i
      rw [countP_eraseIdx hk, hhas] at hcount
      dsimp only
      rw [(hgave.counts ht').2]
      omega
    · nofun

theorem step_eq_some {a : Action} (h : traffic.step s a = some s') : Enabled s a ∧ act s a = some s' := by
  by_cases hen : Enabled s a
  · have heq : traffic.step s a = act s a := if_pos hen
    exact ⟨hen, heq.symm.trans h⟩
  · have heq : traffic.step s a = none := if_neg hen
    cases heq.symm.trans h

theorem inv_step {a : Action} (h : Inv n₀ s) (hs : Sound s a) (hstep : traffic.step s a = some s') : Inv n₀ s' := by
  obtain ⟨hen, hact⟩ := step_eq_some hstep
  cases a with
  | test gresCnt args =>
    obtain ⟨r, htest, rfl⟩ := map_eq_some_iff.1 hact
    exact inv_test h htest
  | alloc job nodeCnt nodeOffset cores memory =>
    obtain ⟨n', job', halloc, hinv⟩ := inv_alloc h hen hs
    rw [act, halloc] at hact
    cases hact
    exact hinv
  | dealloc k =>
    obtain ⟨h', hk, hact⟩ := bind_eq_some_iff.1 hact
    obtain ⟨n', hdealloc, hinv⟩ := inv_dealloc h hk
    rw [hdealloc] at hact
    cases hact
    exact hinv

/-- **Generic resources are conserved** in every run from an idle node whose allocations meet the condition; and no
    allocation that does, and no deallocation, faults. -/
theorem gres_conserved {n₀ : NodeState} (hidle : Idle n₀) {s : State}
    (hreach : traffic.Reach Sound ⟨n₀, [], none⟩ s) :
    Conserved n₀ s ∧ ∀ a, Enabled s a → Sound s a → (∀ g args, a ≠ .test g args) → traffic.step s a ≠ none := by
  have hinv : Inv n₀ s := hreach.invariant (inv_init hidle) fun s a s' h hs hstep => inv_step h hs hstep
  refine ⟨hinv.conserved hidle, fun a hen hs hno => ?_⟩
  have heq : traffic.step s a = act s a := if_pos hen
  rw [heq]
  cases a with
  | test g args => exact absurd rfl (hno g args)
  | alloc job nodeCnt nodeOffset cores memory =>
    obtain ⟨n', job', halloc, -⟩ := inv_alloc hinv hen hs
    rw [act, halloc]
    simp
  | dealloc k =>
    have hk : s.jobs[k]? = some (s.jobs.get ⟨k, hen⟩) := getElem?_eq_getElem hen
    obtain ⟨n', hdealloc, -⟩ := inv_dealloc hinv hk
    rw [act, hk, Option.bind_some, hdealloc]
    simp

/-- The set of one device or processor of two. -/
def one (i : Fin 2) : Bitstr := oneWord 2 (BitVec.ofNat 32 (2 ^ i.val))

def gpuNode : NodeState :=
  ⟨2, 2, 0, some (oneWord 2 0), [⟨one 0, one 0, 0, 1⟩, ⟨one 1, one 1, 0, 1⟩], none⟩

/-- A test of a job that may use both processors. -/
def bothCpus : TestArgs := ⟨false, some (oneWord 2 3), 0, 1, false⟩

/-- A job that gets the first processor. -/
def allocFirst (gresCnt : BitVec 32) : Action := .alloc ⟨gresCnt, 0, none⟩ 1 0 (some (one 0)) fun _ => 0

theorem idle_gpuNode : Idle gpuNode where
  alloc := rfl
  bits b hb i := by
    cases hb
    exact bitTest_bitAlloc (n := 2) rfl i
  entries := by decide
  counts h := nomatch h

/-- The job for one device gets the one at its processor. -/
theorem gres_conserved_one : ∃ s s', traffic.step ⟨gpuNode, [], none⟩ (.test 1 bothCpus) = some s ∧
    traffic.step s (allocFirst 1) = some s' ∧ Conserved gpuNode s' ∧ s'.node.entries.map (·.2.1) = [1, 0] := by
  obtain ⟨s, hs⟩ : ∃ s, traffic.step ⟨gpuNode, [], none⟩ (.test 1 bothCpus) = some s := ⟨_, rfl⟩
  have hsound : Sound s (allocFirst 1) := by
    cases hs
    refine ⟨fun b hb => ?_, fun b hb _ _ => ?_, nofun⟩
    · cases hb
      exact ⟨by decide, by decide, fun h => nomatch h⟩
    · cases hb
      refine ⟨by decide, fun i hi hcand => ?_⟩
      obtain rfl | rfl : i = 0 ∨ i = 1 := by
        have : i < 2 := hi
        omega
      · decide
      · exact absurd (hcand.2 (by decide)) (by decide)
  obtain ⟨s', hs'⟩ : ∃ s', traffic.step s (allocFirst 1) = some s' := by
    cases hs
    exact ⟨_, rfl⟩
  have htest : Sound ⟨gpuNode, [], none⟩ (.test 1 bothCpus) := trivial
  refine ⟨s, s', hs, hs', (gres_conserved idle_gpuNode (.step (.step .start htest hs) hsound hs')).1, ?_⟩
  cases hs
  cases hs'
  decide

/-- The job for both devices holds one of each topology entry, but only one entry counts it. -/
theorem topology_count_missed : Idle gpuNode ∧ ∃ s s', traffic.step ⟨gpuNode, [], none⟩ (.test 2 bothCpus) = some s ∧
    traffic.step s (allocFirst 2) = some s' ∧ s'.node.entries.map (·.2.1) = [1, 0] ∧
    s'.node.entries.map (fun e => (s'.jobs.map (Holder.held e.1)).sum) = [1, 1] ∧ ¬Conserved gpuNode s' := by
  refine ⟨idle_gpuNode, _, _, rfl, rfl, by decide, by decide, fun h => ?_⟩
  have hcount := h.topo (one 1, 0, 1) (by decide)
  cases hcount

end Slurmpp.Gres
