/-
  The active row of a partition.  What a bit of `active_resmap` means depends on `gr_type`:

  * `GS_NODE`             — a node;
  * `GS_CORE`, `GS_CPU2`  — a core;
  * `GS_SOCKET`           — a core, all cores of a socket being set together;
  * `GS_CPU`              — a node, and beside the map `active_cpus` counts CPUs per node.

  A row with `jobs_active == 0` is empty WHATEVER its map says.  So the cores that are taken are `GsPart.occupied`,
  and for `GS_CORE` the row is a set of cores: `jobFitsInActiveRow_iff` and `occupied_addJobToActive`.
-/
import Slurmpp.Lib.Text

namespace Slurmpp.Gang

open List

/-! ## Data -/

/-- The entity that jobs compete for. -/
inductive GrType
  | node
  | socket
  | core
  /-- without task affinity. -/
  | cpu
  /-- with task affinity. -/
  | cpu2
deriving DecidableEq, Repr

inductive SigState
  | suspend
  | resume
deriving DecidableEq, Repr

inductive RowState
  | active
  | noActive
  | filler
deriving DecidableEq, Repr

inductive PreemptMode
  | off
  | suspend
  | requeue
  | checkpoint
  | cancel
deriving DecidableEq, Repr

/-- The part of `job_resources` that is read here.  `coreBitmap` has the cores of the allocated nodes
    only, one node after the other; `cpus` has one entry for each allocated node. -/
structure JobResources where
  nodeBitmap : Finset Nat
  coreBitmap : Finset Nat
  cpus : List Nat
deriving DecidableEq

/-- The part of `job_record` that is read here; `preemptMode` is what `slurm_job_preempt_mode` says. -/
structure JobRecord where
  jobId : Nat
  partition : Text
  jobResrcs : JobResources
  preemptMode : PreemptMode
deriving DecidableEq

/-- The machine: `gr_type`, the bits of every node and its sockets. -/
structure Phys where
  grType : GrType
  bitsPerNode : List Nat
  socketCnt : List Nat

/-- A `gs_part`; the members of `jobList` and `shadow` are pointers to `gs_job` records. -/
structure GsPart where
  partName : Text
  priority : Nat
  jobList : List Nat
  shadow : List Nat
  jobsActive : Nat
  activeResmap : Option (Finset Nat)
  activeCpus : Option (List Nat)
deriving DecidableEq

namespace Phys

variable (P : Phys)

def nodeRecordCount : Nat := P.bitsPerNode.length

/-- `gs_bits_per_node[n]`, which is also `_get_phys_bit_cnt(n)`. -/
def bits (n : Nat) : Nat := P.bitsPerNode.getD n 0

/-- `cr_node_cores_offset[n]`: the bits of all nodes before. -/
def coresOffset (n : Nat) : Nat := (P.bitsPerNode.take n).sum

end Phys

/-! ## Cores -/

namespace JobResources

variable (P : Phys) (r : JobResources)

def nodes : List Nat := (range P.nodeRecordCount).filter (· ∈ r.nodeBitmap)

/-- The pairs of bits that the loops over a job's nodes visit, `jobBitInx` being the first bit in the
    job's own map: a bit of the full map, and the bit of the job's map that goes with it. -/
def places (P : Phys) : List Nat → Nat → List (Nat × Nat)
  | [], _ => []
  | n :: nodes, jobBitInx =>
    (range (P.bits n)).map (fun i => (P.coresOffset n + i, jobBitInx + i)) ++ places P nodes (jobBitInx + P.bits n)

def jobFitsIntoCores (full : Finset Nat) : Bool :=
  (places P (r.nodes P) 0).all fun x => !(decide (x.1 ∈ full) && decide (x.2 ∈ r.coreBitmap))

def addJobToCores (full : Option (Finset Nat)) : Finset Nat :=
  (places P (r.nodes P) 0).foldl (fun m x => if x.2 ∈ r.coreBitmap then insert x.1 m else m)
    (full.getD ∅)

/-- The bits of the full map that a job has. -/
def cores : Finset Nat :=
  (((places P (r.nodes P) 0).filter fun x => x.2 ∈ r.coreBitmap).map Prod.fst).toFinset

/-- The first bit of node `n` in the job's own map. -/
def jobOffset (n : Nat) : Nat :=
  (((range n).filter (· ∈ r.nodeBitmap)).map P.bits).sum

def HasCore (n i : Nat) : Prop :=
  n < P.nodeRecordCount ∧ n ∈ r.nodeBitmap ∧ i < P.bits n ∧ r.jobOffset P n + i ∈ r.coreBitmap

def SharesCore (r' : JobResources) : Prop := ∃ n i, r.HasCore P n i ∧ r'.HasCore P n i

variable {P r}

theorem mem_cores {b : Nat} : b ∈ r.cores P ↔ ∃ j, (b, j) ∈ places P (r.nodes P) 0 ∧ j ∈ r.coreBitmap := by
  simp [cores]

theorem jobFitsIntoCores_iff {full : Finset Nat} : r.jobFitsIntoCores P full = true ↔ Disjoint (r.cores P) full := by
  rw [jobFitsIntoCores, all_eq_true, Finset.disjoint_left]
  constructor
  · intro h b hb hfull
    obtain ⟨j, hj, hcore⟩ := mem_cores.1 hb
    have := h (b, j) hj
    simp [hfull, hcore] at this
  · rintro h ⟨b, j⟩ hj
    by_cases hcore : j ∈ r.coreBitmap
    · simp [h (mem_cores.2 ⟨j, hj, hcore⟩)]
    · simp [hcore]

theorem foldl_insert (l : List (Nat × Nat)) (c m : Finset Nat) :
    l.foldl (fun m x => if x.2 ∈ c then insert x.1 m else m) m =
      m ∪ ((l.filter fun x => x.2 ∈ c).map Prod.fst).toFinset := by
  induction l generalizing m with
  | nil => simp
  | cons x l ih =>
    rw [foldl_cons, ih]
    by_cases hx : x.2 ∈ c
    · ext b
      simp [hx]
    · simp [hx]

theorem addJobToCores_eq (full : Option (Finset Nat)) :
    r.addJobToCores P full = full.getD ∅ ∪ r.cores P := foldl_insert _ _ _

theorem mem_places (pre post : List Nat) {n i : Nat} (jobBitInx : Nat) (hi : i < P.bits n) :
    (P.coresOffset n + i, jobBitInx + (pre.map P.bits).sum + i) ∈ places P (pre ++ n :: post) jobBitInx := by
  induction pre generalizing jobBitInx with
  | nil =>
    rw [nil_append, places, mem_append]
    exact .inl (mem_map.2 ⟨i, mem_range.2 hi, rfl⟩)
  | cons m pre ih =>
    rw [cons_append, places, mem_append, map_cons, sum_cons, ← Nat.add_assoc]
    exact .inr (ih _)

theorem HasCore.mem_cores {n i : Nat} (h : r.HasCore P n i) : P.coresOffset n + i ∈ r.cores P := by
  obtain ⟨hn, hnode, hi, hcore⟩ := h
  refine JobResources.mem_cores.2 ⟨r.jobOffset P n + i, ?_, hcore⟩
  -- the nodes before `n`, then `n`
  have hsplit : r.nodes P = (range n).filter (· ∈ r.nodeBitmap) ++
      n :: ((range (P.nodeRecordCount - (n + 1))).map (n + 1 + ·)).filter
        (· ∈ r.nodeBitmap) := by
    obtain ⟨k, hk⟩ := Nat.exists_eq_add_of_le (Nat.succ_le_of_lt hn)
    rw [nodes, hk, Nat.add_sub_cancel_left, range_add, filter_append, range_succ, filter_append, append_assoc]
    simp [hnode]
  rw [hsplit, jobOffset, ← Nat.zero_add (sum _)]
  exact mem_places _ _ 0 hi

theorem not_sharesCore {r' : JobResources} (h : Disjoint (r.cores P) (r'.cores P)) : ¬r.SharesCore P r' := by
  rintro ⟨n, i, hr, hr'⟩
  exact Finset.disjoint_left.1 h hr.mem_cores hr'.mem_cores

end JobResources

/-! ## Sockets and CPUs -/

/-- The loop of `_fill_sockets` over the sockets of one node: a socket with a bit set is filled. -/
def fillSocket (cps : Nat) : Nat → Nat → Finset Nat → Finset Nat
  | 0, _, m => m
  | socks + 1, c, m =>
    fillSocket cps socks (c + cps)
      (if (range cps).any fun i => decide (c + i ∈ m) then m ∪ Finset.Ico c (c + cps) else m)

/-- `_fill_sockets`; `c` is the first bit of the node that the loop is at. -/
def fillSockets (P : Phys) (jobNodemap : Finset Nat) (m : Finset Nat) : Finset Nat :=
  ((range P.nodeRecordCount).foldl
    (fun (s : Nat × Finset Nat) n =>
      if n ∈ jobNodemap then
        let socks := P.socketCnt.getD n 0
        let cps := P.bits n / socks
        (s.1 + cps * socks, fillSocket cps socks s.1 s.2)
      else (s.1 + P.bits n, s.2)) (0, m)).2

def JobResources.cpusAt (r : JobResources) (i : Nat) : Nat :=
  r.cpus.getD ((range i).filter (· ∈ r.nodeBitmap)).length 0

def canCpusFit (P : Phys) (r : JobResources) (p : GsPart) : Bool :=
  if P.grType ≠ .cpu then false
  else
    match p.activeCpus with
    | none => false
    | some cpus => (r.nodes P).all fun i => decide (cpus.getD i 0 + r.cpusAt i ≤ P.bits i)

/-- `active_cpus` after a job has come; sums are 16 bits wide and cut at the node's CPUs. -/
def addCpus (P : Phys) (r : JobResources) (p : GsPart) : List Nat :=
  (range P.nodeRecordCount).map fun i =>
    let old := (p.activeCpus.getD []).getD i 0
    if p.jobsActive = 0 then (if i ∈ r.nodeBitmap then r.cpusAt i else 0)
    else if i ∈ r.nodeBitmap then min ((old + r.cpusAt i) % 2 ^ 16) (P.bits i)
    else old

/-! ## The row -/

def jobFitsInActiveRow (P : Phys) (r : JobResources) (p : GsPart) : Bool :=
  match p.activeResmap with
  | none => true
  | some m =>
    if p.jobsActive = 0 then true
    else
      match P.grType with
      | .cpu2 | .core | .socket => r.jobFitsIntoCores P m
      | .node => decide (r.nodeBitmap ∩ m = ∅)
      | .cpu => decide (r.nodeBitmap ∩ m = ∅) || canCpusFit P r p

/-- The new `active_resmap` of `_add_job_to_active`. -/
def addToResmap (P : Phys) (r : JobResources) (p : GsPart) : Finset Nat :=
  match P.grType with
  | .cpu2 | .core =>
    r.addJobToCores P (if p.jobsActive = 0 then p.activeResmap.map fun _ => ∅ else p.activeResmap)
  | .socket =>
    fillSockets P r.nodeBitmap
      (r.addJobToCores P (if p.jobsActive = 0 then p.activeResmap.map fun _ => ∅ else p.activeResmap))
  | .node | .cpu =>
    match p.activeResmap with
    | none => r.nodeBitmap
    | some m => if p.jobsActive = 0 then r.nodeBitmap else m ∪ r.nodeBitmap

def addJobToActive (P : Phys) (r : JobResources) (p : GsPart) : GsPart :=
  { p with
    activeResmap := some (addToResmap P r p)
    activeCpus := if P.grType = .cpu then some (addCpus P r p) else p.activeCpus
    jobsActive := p.jobsActive + 1 }

theorem jobFitsInActiveRow_of_empty {P : Phys} {r : JobResources} {p : GsPart}
    (h : p.jobsActive = 0) : jobFitsInActiveRow P r p = true := by
  rw [jobFitsInActiveRow]
  cases p.activeResmap with
  | none => rfl
  | some m => exact if_pos h

def GsPart.occupied (p : GsPart) : Finset Nat :=
  if p.jobsActive = 0 then ∅ else p.activeResmap.getD ∅

section Core

variable {P : Phys} {r : JobResources} {p : GsPart}

/-- **A job fits** exactly if its cores are free. -/
theorem jobFitsInActiveRow_iff (hP : P.grType = .core) :
    jobFitsInActiveRow P r p = true ↔ Disjoint (r.cores P) p.occupied := by
  rw [jobFitsInActiveRow, GsPart.occupied]
  cases hm : p.activeResmap with
  | none => simp
  | some m =>
    by_cases h0 : p.jobsActive = 0
    · simp [h0]
    · simp only [if_neg h0, hP, Option.getD_some]
      exact JobResources.jobFitsIntoCores_iff

/-- **A job that comes takes its cores** and no others. -/
theorem occupied_addJobToActive (hP : P.grType = .core) :
    (addJobToActive P r p).occupied = p.occupied ∪ r.cores P := by
  rw [GsPart.occupied, addJobToActive, if_neg (Nat.succ_ne_zero _), Option.getD_some, addToResmap]
  simp only [hP]
  rw [JobResources.addJobToCores_eq, GsPart.occupied]
  by_cases h0 : p.jobsActive = 0
  · rw [if_pos h0, if_pos h0]
    cases p.activeResmap <;> rfl
  · rw [if_neg h0, if_neg h0]

end Core

end Slurmpp.Gang
