/-
  The two forms of the cpu counts of a job (`build_job_resources_cpu_array` and `build_job_resources_cpus_array` of
  `src/common/job_resources.c`).

  `cpus` has a count for each node; `cpu_array_value` and `cpu_array_reps` have one for each run of equal counts.

  1. **Runs** — the encoder counts the runs from left to right (`countCpus`); the runs spell the counts out again
     (`spread`), and none is empty.
  2. **And back** — the decoder clears `cpus` and then copies `cpus[i]`, where it means `cpu_array_value[i]`: what it
     copies are the zeros it has just written (`fillGroups_zeros`).  So it is right for counts that are all 0.
-/
import Slurmpp.Common.JobResources

namespace Slurmpp.JobRes

open List

/-! ## The model -/

/-- A run: `cpu_array_value[i]` and `cpu_array_reps[i]`. -/
abbrev Run := BitVec 16 × BitVec 32

/-- One count; the last run comes first.  `last_cpu_cnt` is its value, and no 16-bit count before the first one. -/
def countCpus (runs : List Run) (c : BitVec 16) : List Run :=
  match runs with
  | [] => [(c, 1)]
  | (v, reps) :: rest => if c ≠ v then (c, 1) :: (v, reps) :: rest else (v, reps + 1) :: rest

/-- The two arrays, of their largest size. -/
def JobResources.withRuns (job : JobResources) (runs : List Run) : JobResources :=
  { job with
    cpuArrayCnt := BitVec.ofNat 32 runs.length
    cpuArrayValue := some (runs.map Prod.fst ++ replicate (job.nhosts.toNat - runs.length) 0)
    cpuArrayReps := some (runs.map Prod.snd ++ replicate (job.nhosts.toNat - runs.length) 0) }

/-- The job and the number returned, -1 for an error; `none` is a read behind an array. -/
def buildJobResourcesCpuArray (job : JobResources) : Option (JobResources × BitVec 32) :=
  if job.nhosts = 0 then some (job, 0)
  else
    match job.cpus with
    | none => some (job, -1)
    | some cpus =>
      if cpus.length < job.nhosts.toNat then none
      else
        let cpus := cpus.take job.nhosts.toNat
        some (job.withRuns (cpus.foldl countCpus []).reverse, (cpus.map (BitVec.setWidth 32)).sum)

structure Filling where
  cpus : List (BitVec 16)
  cpuInx : Nat
  cpuCount : BitVec 32

/-- The loop over the repetitions of run `i`; whether the array was long enough. -/
def fillGroup (i : Nat) : Nat → Filling → Option (Filling × Bool)
  | 0, s => some (s, true)
  | j + 1, s =>
    if s.cpus.length ≤ s.cpuInx then some (s, false)
    else (s.cpus[i]?).bind fun c =>
      fillGroup i j ⟨s.cpus.set s.cpuInx c, s.cpuInx + 1, s.cpuCount + c.setWidth 32⟩

def fillGroups : Nat → List (BitVec 32) → Filling → Option (Filling × Bool)
  | _, [], s => some (s, true)
  | i, reps :: rest, s => (fillGroup i reps.toNat s).bind fun t =>
    if t.2 then fillGroups (i + 1) rest t.1 else some t

def buildJobResourcesCpusArray (job : JobResources) : Option (JobResources × BitVec 32) :=
  if job.nhosts = 0 then some (job, 0)
  else if job.cpuArrayCnt = 0 then some (job, -1)
  else
    match job.cpuArrayValue, job.cpuArrayReps with
    | some _, some reps =>
      if reps.length < job.cpuArrayCnt.toNat then none
      else
        (fillGroups 0 (reps.take job.cpuArrayCnt.toNat) ⟨replicate job.nhosts.toNat 0, 0, 0⟩).map fun t =>
          ({ job with cpus := some t.1.cpus },
            if t.2 ∧ job.nhosts.toNat ≤ t.1.cpuInx then t.1.cpuCount else -1)
    | _, _ => some (job, -1)

/-! ## Runs -/

def spread (runs : List Run) : List (BitVec 16) := runs.flatMap fun r => replicate r.2.toNat r.1

/-- The runs of a job: none is empty, and there is a count for each node. -/
structure Encodes (job : JobResources) (runs : List Run) : Prop where
  cnt : job.cpuArrayCnt.toNat = runs.length
  value : ∃ unused, job.cpuArrayValue = some (runs.map Prod.fst ++ unused)
  reps : ∃ unused, job.cpuArrayReps = some (runs.map Prod.snd ++ unused)
  pos : ∀ r ∈ runs, r.2 ≠ 0
  length : (spread runs).length = job.nhosts.toNat

variable {job : JobResources} {runs : List Run} {cpus seen : List (BitVec 16)}

theorem encodes_withRuns (hpos : ∀ r ∈ runs, r.2 ≠ 0) (hlen : (spread runs).length = job.nhosts.toNat) :
    Encodes (job.withRuns runs) runs := by
  have hruns : runs.length ≤ (spread runs).length := by
    rw [spread, length_flatMap, ← length_map]
    refine length_le_sum_of_one_le _ ?_
    intro n hn
    obtain ⟨r, hr, rfl⟩ := mem_map.1 hn
    rw [length_replicate]
    exact Nat.pos_of_ne_zero fun hzero => hpos r hr (BitVec.eq_of_toNat_eq hzero)
  have := job.nhosts.isLt
  refine ⟨?_, ⟨_, rfl⟩, ⟨_, rfl⟩, hpos, hlen⟩
  show (BitVec.ofNat 32 runs.length).toNat = _
  rw [BitVec.toNat_ofNat, Nat.mod_eq_of_lt (by omega)]

/-- What the encoder has of the counts seen. -/
structure Encoded (runs : List Run) (seen : List (BitVec 16)) : Prop where
  seen : spread runs.reverse = seen
  pos : ∀ r ∈ runs, r.2 ≠ 0

theorem Encoded.countCpus (h : Encoded runs seen) (c : BitVec 16) (hlen : seen.length + 1 < 2 ^ 32) :
    Encoded (countCpus runs c) (seen ++ [c]) := by
  have hnew : Encoded ((c, 1) :: runs) (seen ++ [c]) := by
    refine ⟨?_, forall_mem_cons.2 ⟨(by decide : (1 : BitVec 32) ≠ 0), h.pos⟩⟩
    rw [reverse_cons, spread, flatMap_append]
    exact congrArg (· ++ [c]) h.seen
  cases runs with
  | nil => exact hnew
  | cons r rest =>
    rw [JobRes.countCpus]
    split_ifs with hc
    · exact hnew
    · obtain rfl : c = r.1 := not_not.1 hc
      have hseen := h.seen
      rw [reverse_cons, spread, flatMap_append, flatMap_singleton] at hseen
      have hreps : (r.2 + 1).toNat = r.2.toNat + 1 := by
        have := congrArg length hseen
        rw [length_append, length_replicate] at this
        rw [BitVec.toNat_add, Nat.mod_eq_of_lt]
        · rfl
        · show r.2.toNat + 1 < _
          omega
      constructor
      · rw [reverse_cons, spread, flatMap_append, flatMap_singleton, ← hseen, hreps, replicate_succ',
          append_assoc]
      · refine forall_mem_cons.2 ⟨?_, (forall_mem_cons.1 h.pos).2⟩
        intro hzero
        have hzero : r.2 + 1 = 0 := hzero
        rw [hzero] at hreps
        cases hreps

theorem encoded_foldl (h : Encoded runs seen) (hlen : (seen ++ cpus).length < 2 ^ 32) :
    Encoded (cpus.foldl countCpus runs) (seen ++ cpus) := by
  induction cpus generalizing runs seen with
  | nil => rwa [append_nil]
  | cons c cpus ih =>
    rw [append_cons] at hlen ⊢
    refine ih (h.countCpus c ?_) hlen
    rw [length_append, length_append, length_singleton] at hlen
    omega

/-! ## And back -/

theorem fillGroup_zeros {i n inx : Nat} (hi : i < n) {j : Nat} (h : inx + j ≤ n) :
    fillGroup i j ⟨replicate n 0, inx, 0⟩ = some (⟨replicate n 0, inx + j, 0⟩, true) := by
  induction j generalizing inx with
  | zero => rfl
  | succ j ih =>
    have hroom : ¬(replicate n (0 : BitVec 16)).length ≤ inx := by
      rw [length_replicate]
      omega
    have hread : (replicate n (0 : BitVec 16))[i]? = some 0 := by rw [getElem?_replicate, if_pos hi]
    have hrest := @ih (inx + 1) (by omega)
    rw [Nat.add_right_comm] at hrest
    rw [fillGroup, if_neg hroom, hread, Option.bind_some, set_replicate_self]
    exact hrest

/-- **The decoder copies zeros.** -/
theorem fillGroups_zeros {i n inx : Nat} (hpos : ∀ r ∈ runs, r.2 ≠ 0) (hi : i ≤ inx)
    (h : inx + (spread runs).length = n) :
    fillGroups i (runs.map Prod.snd) ⟨replicate n 0, inx, 0⟩ = some (⟨replicate n 0, n, 0⟩, true) := by
  induction runs generalizing i inx with
  | nil => rw [← h]; rfl
  | cons r rest ih =>
    have hlen : (spread (r :: rest)).length = r.2.toNat + (spread rest).length := by
      rw [spread, flatMap_cons, length_append, length_replicate]
      rfl
    have hr : r.2.toNat ≠ 0 := fun hzero => hpos r mem_cons_self (BitVec.eq_of_toNat_eq hzero)
    rw [map_cons, fillGroups, fillGroup_zeros (by omega) (by omega), Option.bind_some]
    exact ih (forall_mem_cons.1 hpos).2 (by omega) (by omega)

/-- The decoder gives these counts. -/
def Expands (job : JobResources) (cpus : List (BitVec 16)) : Prop :=
  ∃ job' count, buildJobResourcesCpusArray job = some (job', count) ∧ count ≠ -1 ∧
    (job'.cpus.getD []).take job.nhosts.toNat = cpus

theorem Encodes.expands_iff (h : Encodes job runs) (hcpus : cpus = spread runs) :
    Expands job cpus ↔ ∀ c ∈ cpus, c = 0 := by
  have hlen : cpus.length = job.nhosts.toNat := hcpus ▸ h.length
  by_cases hn : job.nhosts = 0
  · obtain rfl : cpus = [] := eq_nil_of_length_eq_zero (hlen.trans (by rw [hn]; rfl))
    simp [Expands, buildJobResourcesCpusArray, hn]
  · have hcnt : job.cpuArrayCnt ≠ 0 := by
      intro hzero
      obtain rfl : runs = [] := eq_nil_of_length_eq_zero (h.cnt.symm.trans (by rw [hzero]; rfl))
      exact hn (BitVec.eq_of_toNat_eq h.length.symm)
    obtain ⟨unused, hvalue⟩ := h.value
    obtain ⟨unused', hreps⟩ := h.reps
    have hmade : buildJobResourcesCpusArray job =
        some ({ job with cpus := some (replicate job.nhosts.toNat 0) }, 0) := by
      rw [buildJobResourcesCpusArray, if_neg hn, if_neg hcnt, hvalue, hreps]
      show (if _ then _ else _) = _
      rw [if_neg (by simp [h.cnt]), h.cnt, ← length_map Prod.snd, take_left,
        fillGroups_zeros h.pos le_rfl ((Nat.zero_add _).trans h.length)]
      simp
    have hzeros : Expands job cpus ↔ replicate job.nhosts.toNat 0 = cpus := by
      simp [Expands, hmade]
    rw [hzeros, ← hlen, eq_comm, eq_replicate_iff]
    exact and_iff_right rfl

/-- **The decoder undoes the encoder exactly for counts that are all 0.**  The encoder gives the runs of any counts;
    and the decoder gives the counts that runs stand for if and only if there is no count but 0. -/
theorem cpu_arrays_invert_iff (job : JobResources) :
    (∀ cpus, job.cpus = some cpus → cpus.length = job.nhosts.toNat →
      ∃ job' count, buildJobResourcesCpuArray job = some (job', count) ∧ job'.nhosts = job.nhosts ∧
        (job.nhosts ≠ 0 → ∃ runs, Encodes job' runs ∧ spread runs = cpus) ∧
        (Expands job' cpus ↔ ∀ c ∈ cpus, c = 0)) ∧
    ∀ runs, Encodes job runs → (Expands job (spread runs) ↔ ∀ c ∈ spread runs, c = 0) := by
  refine ⟨?_, fun runs h => h.expands_iff rfl⟩
  intro cpus hcpus hlen
  rw [buildJobResourcesCpuArray]
  by_cases hn : job.nhosts = 0
  · obtain rfl : cpus = [] := eq_nil_of_length_eq_zero (hlen.trans (by rw [hn]; rfl))
    refine ⟨job, 0, if_pos hn, rfl, fun h => absurd hn h, ?_⟩
    simp [Expands, buildJobResourcesCpusArray, hn]
  · have henc : Encoded (cpus.foldl countCpus []) cpus :=
      encoded_foldl ⟨rfl, forall_mem_nil _⟩ (hlen.trans_lt job.nhosts.isLt)
    have hencodes := encodes_withRuns (fun r hr => henc.pos r (mem_reverse.1 hr))
      ((congrArg length henc.seen).trans hlen)
    rw [if_neg hn, hcpus]
    dsimp only
    rw [if_neg (not_lt.2 hlen.ge), ← hlen, take_length]
    exact ⟨_, _, rfl, rfl, fun _ => ⟨_, hencodes, henc.seen⟩, hencodes.expands_iff henc.seen.symm⟩

/-- One node with one cpu: the encoder gives the run, the decoder no cpu. -/
theorem cpus_array_loses_cpus :
    (buildJobResourcesCpuArray { createJobResources with nhosts := 1, cpus := some [1] }).bind
      (fun r => (buildJobResourcesCpusArray r.1).map fun r => (r.1.cpuArrayValue, r.1.cpuArrayReps, r.1.cpus, r.2)) =
    some (some [1], some [1], some [0], 0) := by
  decide

end Slurmpp.JobRes
