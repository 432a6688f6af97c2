/-
  Jobs on the core map of the cluster (`src/common/job_resources.c`, `src/common/node_conf.c`).

  1. **Two numberings** — the cores of node `n` begin at `cr_node_cores_offset[n]` in the core map, and in the
     job's bitmap where those of its nodes before `n` end.
  2. **One walk** — `job_fits_into_cores`, `add_job_to_cores` and `remove_job_from_cores` walk the nodes of the
     job and look at each core in both numberings: `walk_eq`.
  3. **Sets of cores** — so they are a test for disjointness, a union and a difference (`jobFits_iff`,
     `changeCores_eq`), and everything about their order is about sets.
-/
import Slurmpp.Common.BitCount
import Slurmpp.Common.BitSearch
import Slurmpp.Common.JobResources

namespace Slurmpp.JobRes

open Bitstring Blocks List Nat

/-! ## The layout of the cluster -/

/-- `cr_node_num_cores`, the `bits_per_node` of the functions below. -/
structure Layout where
  numCores : List (BitVec 16)
  nodes_lt : numCores.length < 2 ^ 31 - 32
  cores_lt : start (fun n => (numCores.getD n 0).toNat) numCores.length < 2 ^ 31

/-- `node_record_count` -/
def Layout.nodes (lay : Layout) : Nat := lay.numCores.length

/-- `bits_per_node[n]` -/
def Layout.bitsPerNode (lay : Layout) (n : Nat) : Nat := (lay.numCores.getD n 0).toNat

/-- `cr_node_cores_offset[n]`: each entry is the one before it and the cores of the node before. -/
def Layout.coresOffset (lay : Layout) (n : Nat) : Nat := start lay.bitsPerNode n

/-- The size of the core map: the sum of all `bits_per_node`. -/
def Layout.size (lay : Layout) : Nat := lay.coresOffset lay.nodes

/-! ## The walk -/

/-- How the body of a loop ends. -/
inductive Flow (σ ρ : Type) where
  | next (s : σ)
  | ret (r : ρ)
  | fault

def Flow.andThen {σ ρ : Type} : Flow σ ρ → (σ → Flow σ ρ) → Flow σ ρ
  | .next s, f => f s
  | .ret r, _ => .ret r
  | .fault, _ => .fault

section Walk

variable {σ ρ : Type} (body : Nat → Nat → σ → Flow σ ρ) (lay : Layout) (nodeBitmap : Bitstr)

/-- The loop over the `n` cores of a node, from the positions `fullBit` and `jobBit` on. -/
def coreLoop : Nat → Nat → Nat → σ → Flow σ ρ
  | 0, _, _, s => .next s
  | n + 1, fullBit, jobBit, s =>
    (body fullBit jobBit s).andThen (coreLoop n (fullBit + 1) (jobBit + 1))

/-- The loop over the nodes: `full_node_inx`, `job_bit_inx` and `job_node_cnt`.  Behind the last node the
    assertion in `bit_test` fails. -/
def nodeLoop : Nat → Nat → Nat → Nat → σ → Flow σ ρ
  | _, _, _, 0, s => .next s
  | 0, _, _, _ + 1, _ => .fault
  | fuel + 1, nodeInx, jobBit, cnt + 1, s =>
    if nodeInx < nodeBitmap.bits then
      if bitTest nodeBitmap nodeInx then
        (coreLoop body (lay.bitsPerNode nodeInx) (lay.coresOffset nodeInx) jobBit s).andThen
          (nodeLoop fuel (nodeInx + 1) (jobBit + lay.bitsPerNode nodeInx) cnt)
      else nodeLoop fuel (nodeInx + 1) jobBit (cnt + 1) s
    else .fault

/-- The walk that the three functions have in common. -/
def walk (s : σ) : Flow σ ρ :=
  match bitSetCount nodeBitmap, bitFfs nodeBitmap with
  | some cnt, some first => nodeLoop body lay nodeBitmap nodeBitmap.bits first.toNat 0 cnt s
  | _, _ => .fault

end Walk

/-! ## The three functions -/

/-- `bit_test` with its assertion. -/
def bitTestValid (b : Bitstr) (bit : Nat) : Option Bool :=
  if bit < b.bits then some (bitTest b bit) else none

/-- The body of the loop in `job_fits_into_cores`. -/
def fitsBody (full cores : Bitstr) (fullBit jobBit : Nat) (_ : Unit) : Flow Unit Bool :=
  match bitTestValid full fullBit with
  | none => .fault
  | some false => .next ()
  | some true =>
    match bitTestValid cores jobBit with
    | none => .fault
    | some false => .next ()
    | some true => .ret false

/-- `job_fits_into_cores`; `none` is a failed assertion or a `NULL` pointer followed. -/
def jobFitsIntoCores (lay : Layout) (job : JobResources) (full : Option Bitstr) : Option Bool :=
  match full with
  | none => some true
  | some full =>
    match job.nodeBitmap, job.coreBitmap with
    | some nodes, some cores =>
      match walk (fitsBody full cores) lay nodes () with
      | .next _ => some true
      | .ret r => some r
      | .fault => none
    | _, _ => none

/-- The body of the loop in `add_job_to_cores` (`v` is true) and `remove_job_from_cores`. -/
def changeBody (v : Bool) (cores : Bitstr) (fullBit jobBit : Nat) (full : Bitstr) : Flow Bitstr Empty :=
  match bitTestValid cores jobBit with
  | none => .fault
  | some false => .next full
  | some true =>
    match if v then bitSet full fullBit else bitClear full fullBit with
    | none => .fault
    | some full => .next full

/-- The common body of `add_job_to_cores` and `remove_job_from_cores`: the map afterwards. -/
def changeCores (v : Bool) (lay : Layout) (job : JobResources) (full : Option Bitstr) : Option (Option Bitstr) :=
  match job.coreBitmap with
  | none => some full
  | some cores =>
    -- a map is allocated as needed
    match full.orElse fun _ => bitAlloc lay.size, job.nodeBitmap with
    | some full, some nodes =>
      match walk (changeBody v cores) lay nodes full with
      | .next full => some (some full)
      | _ => none
    | _, _ => none

def addJobToCores (lay : Layout) (job : JobResources) (full : Option Bitstr) : Option (Option Bitstr) :=
  changeCores true lay job full

def removeJobFromCores (lay : Layout) (job : JobResources) (full : Option Bitstr) : Option (Option Bitstr) :=
  changeCores false lay job full

/-! ## What the walk visits -/

variable {σ ρ : Type} {body : Nat → Nat → σ → Flow σ ρ} {lay : Layout} {nodes cores : Bitstr}
  {n m k i g j : Nat}

def runAll (body : Nat → Nat → σ → Flow σ ρ) : List (Nat × Nat) → σ → Flow σ ρ
  | [], s => .next s
  | p :: ps, s => (body p.1 p.2 s).andThen (runAll body ps)

theorem runAll_append (ps qs : List (Nat × Nat)) (s : σ) :
    runAll body (ps ++ qs) s = (runAll body ps s).andThen (runAll body qs) := by
  induction ps generalizing s with
  | nil => rfl
  | cons p ps ih =>
    rw [cons_append, runAll, runAll]
    cases body p.1 p.2 s with
    | next s => exact ih s
    | ret | fault => rfl

/-- The cores that a node has in the job's bitmap. -/
def jobBits (lay : Layout) (nodes : Bitstr) (n : Nat) : Nat :=
  if bitTest nodes n then lay.bitsPerNode n else 0

/-- Where the cores of a node begin in the job's bitmap. -/
def jobOffset (lay : Layout) (nodes : Bitstr) (n : Nat) : Nat := start (jobBits lay nodes) n

/-- The cores of a node, in both numberings. -/
def coresAt (lay : Layout) (nodes : Bitstr) (n : Nat) : List (Nat × Nat) :=
  (range (jobBits lay nodes n)).map fun i => (lay.coresOffset n + i, jobOffset lay nodes n + i)

/-- The cores that the walk visits at the `m` nodes from `n` on. -/
def visits (lay : Layout) (nodes : Bitstr) : Nat → Nat → List (Nat × Nat)
  | 0, _ => []
  | m + 1, n => coresAt lay nodes n ++ visits lay nodes m (n + 1)

theorem coreLoop_eq (m fullBit jobBit : Nat) (s : σ) :
    coreLoop body m fullBit jobBit s = runAll body ((range m).map fun i => (fullBit + i, jobBit + i)) s := by
  induction m generalizing fullBit jobBit s with
  | zero => rfl
  | succ m ih =>
    rw [coreLoop, range_succ_eq_map, map_cons, runAll, map_map]
    cases body fullBit jobBit s with
    | next s =>
      refine (ih (fullBit + 1) (jobBit + 1) s).trans ?_
      congr 2
      funext i
      simp only [Function.comp_apply, succ_eq_add_one]
      rw [add_right_comm, add_assoc fullBit, add_right_comm, add_assoc jobBit]
    | ret | fault => rfl

theorem visits_eq : visits lay nodes m n = (range' n m).flatMap (coresAt lay nodes) := by
  induction m generalizing n with
  | zero => rfl
  | succ m ih => rw [visits, ih, range'_succ, flatMap_cons]

theorem visits_of_clear (h : ∀ i, n ≤ i → i < n + m → bitTest nodes i = false) : visits lay nodes m n = [] := by
  rw [visits_eq, flatMap_eq_nil_iff]
  intro i hi
  obtain ⟨h1, h2⟩ := mem_range'_1.1 hi
  rw [coresAt, jobBits, h i h1 h2]
  rfl

theorem visits_add (lay : Layout) (nodes : Bitstr) (m k n : Nat) :
    visits lay nodes (m + k) n = visits lay nodes m n ++ visits lay nodes k (n + m) := by
  rw [visits_eq, visits_eq, visits_eq, ← range'_append_1, flatMap_append]

theorem setBelow_mono (b : Bitstr) (h : n ≤ m) : setBelow b n ≤ setBelow b m := by
  obtain ⟨k, rfl⟩ := Nat.exists_eq_add_of_le h
  rw [setBelow_add]
  omega

variable {b full : Bitstr}

theorem setBelow_eq_zero (h : ∀ i < n, bitTest b i = false) : setBelow b n = 0 := by
  rw [setBelow, countP_eq_zero]
  intro i hi
  rw [h i (mem_range.1 hi)]
  decide

theorem clear_of_setBelow (h : setBelow nodes n = setBelow nodes m) (hi : n ≤ i) (him : i < m) :
    bitTest nodes i = false := by
  have h1 := setBelow_mono nodes hi
  have h2 := setBelow_mono nodes (show i + 1 ≤ m from him)
  rw [setBelow_succ] at h2
  by_contra hset
  rw [Bool.not_eq_false] at hset
  rw [hset] at h2
  simp only [if_true] at h2
  omega

/-- **The loop over the nodes.**  It stands at node `n`, with as many nodes to count as are set from
    there on. -/
theorem nodeLoop_eq {fuel cnt : Nat} (hn : n ≤ nodes.bits) (hfuel : nodes.bits ≤ n + fuel)
    (hcnt : setBelow nodes n + cnt = setBelow nodes nodes.bits) (s : σ) :
    nodeLoop body lay nodes fuel n (jobOffset lay nodes n) cnt s =
      runAll body (visits lay nodes (nodes.bits - n) n) s := by
  induction fuel generalizing n cnt s with
  | zero =>
    obtain rfl : n = nodes.bits := by omega
    obtain rfl : cnt = 0 := by omega
    rw [nodeLoop, Nat.sub_self]
    rfl
  | succ fuel ih =>
    cases cnt with
    | zero =>
      rw [nodeLoop, visits_of_clear]
      · rfl
      · intro i h1 h2
        exact clear_of_setBelow hcnt h1 (by omega)
    | succ cnt =>
      have hlt : n < nodes.bits := by
        by_contra h
        obtain rfl : n = nodes.bits := by omega
        omega
      have hsucc := setBelow_succ nodes n
      have hnext : jobOffset lay nodes (n + 1) = jobOffset lay nodes n + jobBits lay nodes n := rfl
      rw [nodeLoop, if_pos hlt, show nodes.bits - n = nodes.bits - (n + 1) + 1 by omega, visits, runAll_append]
      by_cases hset : bitTest nodes n = true
      · rw [if_pos hset] at hsucc ⊢
        have hbits : jobBits lay nodes n = lay.bitsPerNode n := by rw [jobBits, if_pos hset]
        rw [coreLoop_eq, coresAt, hbits]
        congr 1
        funext s
        rw [← hbits, ← hnext]
        exact @ih (n + 1) cnt hlt (by omega) (by omega) s
      · rw [if_neg hset] at hsucc ⊢
        have hbits : jobBits lay nodes n = 0 := by rw [jobBits, if_neg hset]
        have hrest := @ih (n + 1) (cnt + 1) hlt (by omega) (by omega) s
        rw [hnext, hbits, Nat.add_zero] at hrest
        rw [coresAt, hbits]
        exact hrest

/-- **The walk** visits the cores of the job, node by node. -/
theorem walk_eq (hsize : nodes.bits < 2 ^ 31 - 32) (s : σ) :
    walk body lay nodes s = runAll body (visits lay nodes nodes.bits 0) s := by
  obtain ⟨v, hffs, hfirst⟩ := bitFfs_eq (b := nodes) (by omega)
  rw [walk, bitSetCount_eq hsize, hffs]
  dsimp only
  rcases hfirst with ⟨rfl, hnone⟩ | ⟨first, rfl, ⟨hlt, -⟩, hleast⟩
  · have hclear : ∀ i, 0 ≤ i → i < 0 + nodes.bits → bitTest nodes i = false := by
      intro i _ hi
      exact Bool.eq_false_iff.2 (hnone i (by omega))
    have hzero : setBelow nodes nodes.bits = 0 := setBelow_eq_zero fun i hi => hclear i (Nat.zero_le i) (by omega)
    rw [hzero, visits_of_clear hclear]
    cases nodes.bits <;> rfl
  · have hclear : ∀ i < first, bitTest nodes i = false := by
      intro i hi
      by_contra hset
      rw [Bool.not_eq_false] at hset
      have := hleast ⟨hi.trans hlt, hset⟩
      omega
    have hoffset : jobOffset lay nodes first = 0 := by
      refine start_eq_zero fun i hi => ?_
      rw [jobBits, hclear i hi]
      rfl
    have hzero : setBelow nodes first = 0 := setBelow_eq_zero hclear
    have hempty : visits lay nodes first 0 = [] := visits_of_clear fun i _ hi => hclear i (by omega)
    have hvisits := visits_add lay nodes first (nodes.bits - first) 0
    rw [Nat.add_sub_cancel' hlt.le, hempty, nil_append, Nat.zero_add] at hvisits
    have hloop := @nodeLoop_eq σ ρ body lay nodes first nodes.bits (setBelow nodes nodes.bits) hlt.le
      (by omega) (by omega) s
    rw [hoffset] at hloop
    rw [hvisits, Int.toNat_natCast]
    exact hloop

/-! ## Sets of cores -/

def InJob (lay : Layout) (nodes cores : Bitstr) (g : Nat) : Prop :=
  ∃ n i, n < nodes.bits ∧ bitTest nodes n = true ∧ i < lay.bitsPerNode n ∧ g = lay.coresOffset n + i ∧
    bitTest cores (jobOffset lay nodes n + i) = true

theorem mem_coresAt : (g, j) ∈ coresAt lay nodes n ↔
    ∃ i, bitTest nodes n = true ∧ i < lay.bitsPerNode n ∧ g = lay.coresOffset n + i ∧
      j = jobOffset lay nodes n + i := by
  rw [coresAt, mem_map]
  constructor
  · rintro ⟨i, hi, heq⟩
    cases heq
    rw [mem_range, jobBits] at hi
    split at hi
    next hset =>
      exact ⟨i, hset, hi, rfl, rfl⟩
    next hset =>
      omega
  · rintro ⟨i, hset, hi, rfl, rfl⟩
    refine ⟨i, ?_, rfl⟩
    rw [mem_range, jobBits, if_pos hset]
    exact hi

theorem mem_visits : (g, j) ∈ visits lay nodes m n ↔
    ∃ k i, n ≤ k ∧ k < n + m ∧ bitTest nodes k = true ∧ i < lay.bitsPerNode k ∧ g = lay.coresOffset k + i ∧
      j = jobOffset lay nodes k + i := by
  rw [visits_eq, mem_flatMap]
  simp only [mem_range'_1, mem_coresAt]
  constructor
  · rintro ⟨k, ⟨h1, h2⟩, i, hcore⟩
    exact ⟨k, i, h1, h2, hcore⟩
  · rintro ⟨k, i, h1, h2, hcore⟩
    exact ⟨k, ⟨h1, h2⟩, i, hcore⟩

theorem inJob_iff {g : Nat} : InJob lay nodes cores g ↔
    ∃ j, (g, j) ∈ visits lay nodes nodes.bits 0 ∧ bitTest cores j = true := by
  constructor
  · rintro ⟨n, i, hn, hset, hi, hg, hcore⟩
    exact ⟨_, mem_visits.2 ⟨n, i, zero_le n, by omega, hset, hi, hg, rfl⟩, hcore⟩
  · rintro ⟨j, hmem, hcore⟩
    obtain ⟨n, i, -, hn, hset, hi, hg, rfl⟩ := mem_visits.1 hmem
    exact ⟨n, i, by omega, hset, hi, hg, hcore⟩

/-- `b'` is `b` with the positions in `P` set to `v`. -/
structure Painted (v : Bool) (P : Nat → Prop) (b b' : Bitstr) : Prop where
  bits : b'.bits = b.bits
  inside : ∀ g, P g → bitTest b' g = v
  outside : ∀ g, ¬P g → bitTest b' g = bitTest b g

theorem painted_put (v : Bool) (h : k < b.bits) : Painted v (· = k) b (put v b k) := by
  refine ⟨rfl, fun g hg => ?_, fun g hg => ?_⟩
  · rw [bitTest_put h, if_pos hg]
  · rw [bitTest_put h, if_neg hg]

theorem Painted.refl (v : Bool) {P : Nat → Prop} (hP : ∀ g, ¬P g) (b : Bitstr) : Painted v P b b :=
  ⟨rfl, fun g hg => absurd hg (hP g), fun _ _ => rfl⟩

theorem Painted.trans {v : Bool} {P Q R : Nat → Prop} {b' b'' : Bitstr} (h : Painted v P b b')
    (h' : Painted v Q b' b'') (hR : ∀ g, R g ↔ P g ∨ Q g) : Painted v R b b'' := by
  refine ⟨h'.bits.trans h.bits, fun g hg => ?_, fun g hg => ?_⟩
  · by_cases hq : Q g
    · exact h'.inside g hq
    · rw [h'.outside g hq, h.inside g (((hR g).1 hg).resolve_right hq)]
  · rw [hR, not_or] at hg
    rw [h'.outside g hg.2, h.outside g hg.1]

def Valid (full cores : Bitstr) (ps : List (Nat × Nat)) : Prop :=
  ∀ p ∈ ps, p.1 < full.bits ∧ p.2 < cores.bits

/-- **Adding and removing** set the cores of the job that the walk visits, and no others. -/
theorem runAll_changeBody (v : Bool) {ps : List (Nat × Nat)} (h : Valid full cores ps) :
    ∃ full', runAll (changeBody v cores) ps full = .next full' ∧
      Painted v (fun g => ∃ j, (g, j) ∈ ps ∧ bitTest cores j = true) full full' := by
  induction ps generalizing full with
  | nil => exact ⟨full, rfl, Painted.refl v (by simp) full⟩
  | cons p ps ih =>
    obtain ⟨hfull, hcore⟩ := h p mem_cons_self
    have htest : bitTestValid cores p.2 = some (bitTest cores p.2) := if_pos hcore
    cases hset : bitTest cores p.2 with
    | false =>
      have hbody : changeBody v cores p.1 p.2 full = .next full := by
        rw [changeBody, htest, hset]
      obtain ⟨full', hrun, hpaint⟩ := ih (forall_mem_cons.1 h).2
      refine ⟨full', by rw [runAll, hbody]; exact hrun, ?_⟩
      refine (Painted.refl v (fun _ hf => hf) full).trans hpaint fun g => ?_
      rw [false_or]
      constructor
      · rintro ⟨j, hmem, hj⟩
        rcases mem_cons.1 hmem with heq | hmem
        · rw [← heq, hj] at hset
          cases hset
        · exact ⟨j, hmem, hj⟩
      · rintro ⟨j, hmem, hj⟩
        exact ⟨j, mem_cons_of_mem _ hmem, hj⟩
    | true =>
      have hbody : changeBody v cores p.1 p.2 full = .next (put v full p.1) := by
        rw [changeBody, htest, hset]
        rw [ite_eq_put hfull]
      have hone := painted_put v hfull
      have hvalid : Valid (put v full p.1) cores ps := by
        intro q hq
        rw [hone.bits]
        exact h q (mem_cons_of_mem _ hq)
      obtain ⟨full', hrun, hpaint⟩ := ih hvalid
      refine ⟨full', by rw [runAll, hbody]; exact hrun, hone.trans hpaint fun g => ?_⟩
      constructor
      · rintro ⟨j, hmem, hj⟩
        rcases mem_cons.1 hmem with heq | hmem
        · exact .inl (congrArg Prod.fst heq)
        · exact .inr ⟨j, hmem, hj⟩
      · rintro (rfl | ⟨j, hmem, hj⟩)
        · exact ⟨p.2, mem_cons_self, hset⟩
        · exact ⟨j, mem_cons_of_mem _ hmem, hj⟩

/-- **The test** ends at the first core that is both in the map and in the job. -/
theorem runAll_fitsBody {ps : List (Nat × Nat)} (h : Valid full cores ps) :
    (runAll (fitsBody full cores) ps () = .next () ∧
        ∀ g j, (g, j) ∈ ps → bitTest cores j = true → bitTest full g = false) ∨
      (runAll (fitsBody full cores) ps () = .ret false ∧
        ∃ g j, (g, j) ∈ ps ∧ bitTest cores j = true ∧ bitTest full g = true) := by
  induction ps with
  | nil => exact .inl ⟨rfl, fun _ _ hmem => absurd hmem not_mem_nil⟩
  | cons p ps ih =>
    obtain ⟨hfull, hcore⟩ := h p mem_cons_self
    have htest : bitTestValid full p.1 = some (bitTest full p.1) := if_pos hfull
    have htest' : bitTestValid cores p.2 = some (bitTest cores p.2) := if_pos hcore
    by_cases hboth : bitTest cores p.2 = true ∧ bitTest full p.1 = true
    · refine .inr ⟨?_, p.1, p.2, mem_cons_self, hboth⟩
      rw [runAll, fitsBody, htest, htest', hboth.1, hboth.2]
      rfl
    · have hbody : fitsBody full cores p.1 p.2 () = .next () := by
        rw [fitsBody, htest, htest']
        cases hf : bitTest full p.1 with
        | false => rfl
        | true =>
          cases hc : bitTest cores p.2 with
          | false => rfl
          | true => exact absurd ⟨hc, hf⟩ hboth
      rw [runAll, hbody]
      rcases ih (forall_mem_cons.1 h).2 with ⟨hrun, hnone⟩ | ⟨hrun, g, j, hmem, hgj⟩
      · refine .inl ⟨hrun, fun g j hmem hj => ?_⟩
        rcases mem_cons.1 hmem with rfl | hmem
        · exact Bool.eq_false_iff.2 fun hg => hboth ⟨hj, hg⟩
        · exact hnone g j hmem hj
      · exact .inr ⟨hrun, g, j, mem_cons_of_mem _ hmem, hgj⟩

/-! ## Jobs of the cluster -/

/-- A job over the nodes of a layout, with a bit for each core of its nodes. -/
structure On (lay : Layout) (job : JobResources) (nodes cores : Bitstr) : Prop where
  nodeBitmap_eq : job.nodeBitmap = some nodes
  nodes_bits : nodes.bits = lay.nodes
  coreBitmap_eq : job.coreBitmap = some cores
  cores_bits : cores.bits = jobOffset lay nodes lay.nodes

/-- Core `g` of a map that may not be there yet. -/
def mapBit (full : Option Bitstr) (g : Nat) : Bool :=
  match full with
  | none => false
  | some b => bitTest b g

variable {job job₁ job₂ : JobResources} {nodes₁ nodes₂ cores₁ cores₂ : Bitstr} {full : Option Bitstr}

theorem On.bits_lt (h : On lay job nodes cores) : nodes.bits < 2 ^ 31 - 32 := by
  rw [h.nodes_bits]
  exact lay.nodes_lt

theorem On.valid (h : On lay job nodes cores) (hb : b.bits = lay.size) :
    Valid b cores (visits lay nodes nodes.bits 0) := by
  rintro ⟨g, j⟩ hmem
  obtain ⟨n, i, -, hn, hset, hi, rfl, rfl⟩ := mem_visits.1 hmem
  rw [h.nodes_bits, zero_add] at hn
  have hfull : lay.coresOffset n + lay.bitsPerNode n ≤ lay.size := start_add_le hn
  have hjob : jobOffset lay nodes n + jobBits lay nodes n ≤ jobOffset lay nodes lay.nodes := start_add_le hn
  rw [jobBits, if_pos hset] at hjob
  rw [hb, h.cores_bits]
  exact ⟨by omega, by omega⟩

section

variable (hfull : ∀ b ∈ full, b.bits = lay.size)
include hfull

theorem exists_map :
    ∃ b, (full.orElse fun _ => bitAlloc lay.size) = some b ∧ b.bits = lay.size ∧
      ∀ g, bitTest b g = mapBit full g := by
  cases full with
  | some b => exact ⟨b, rfl, hfull b rfl, fun _ => rfl⟩
  | none =>
    have hlt : lay.size < 2 ^ 31 := lay.cores_lt
    refine ⟨_, dif_pos hlt, rfl, fun g => ?_⟩
    exact bitTest_bitAlloc (dif_pos hlt) g

/-- **A change of the map**: the cores of the job are set or cleared, no others. -/
theorem On.changeCores_eq (h : On lay job nodes cores) (v : Bool) :
    ∃ b', changeCores v lay job full = some (some b') ∧ b'.bits = lay.size ∧
      (∀ g, InJob lay nodes cores g → bitTest b' g = v) ∧
      ∀ g, ¬InJob lay nodes cores g → bitTest b' g = mapBit full g := by
  obtain ⟨b, hb, hbits, htest⟩ := exists_map hfull
  obtain ⟨b', hrun, hpaint⟩ := runAll_changeBody v (h.valid hbits)
  refine ⟨b', ?_, hpaint.bits.trans hbits, fun g hg => hpaint.inside g (inJob_iff.1 hg), fun g hg => ?_⟩
  · rw [changeCores, h.coreBitmap_eq, h.nodeBitmap_eq]
    rw [hb]
    dsimp only
    rw [walk_eq h.bits_lt, hrun]
  · rw [hpaint.outside g fun hin => hg (inJob_iff.2 hin), htest]

/-- **The test**: does the map hold a core of the job? -/
theorem On.jobFits_iff (h : On lay job nodes cores) :
    ∃ fits, jobFitsIntoCores lay job full = some fits ∧
      (fits = true ↔ ∀ g, InJob lay nodes cores g → mapBit full g = false) := by
  cases full with
  | none => exact ⟨true, rfl, iff_of_true rfl fun _ _ => rfl⟩
  | some b =>
    have hwalk : walk (fitsBody b cores) lay nodes () = _ := walk_eq h.bits_lt ()
    rw [jobFitsIntoCores, h.nodeBitmap_eq, h.coreBitmap_eq]
    dsimp only
    rw [hwalk]
    rcases runAll_fitsBody (h.valid (hfull b rfl)) with ⟨hrun, hnone⟩ | ⟨hrun, g, j, hmem, hj, hg⟩
    · refine ⟨true, by rw [hrun], iff_of_true rfl fun g hg => ?_⟩
      obtain ⟨j, hmem, hj⟩ := inJob_iff.1 hg
      exact hnone g j hmem hj
    · refine ⟨false, by rw [hrun], iff_of_false (by decide) fun hnone => ?_⟩
      have hclear : bitTest b g = false := hnone g (inJob_iff.2 ⟨j, hmem, hj⟩)
      rw [hg] at hclear
      cases hclear

theorem On.add_add (h1 : On lay job₁ nodes₁ cores₁) (h2 : On lay job₂ nodes₂ cores₂)
    :
    ∃ once twice, addJobToCores lay job₁ full = some once ∧
      addJobToCores lay job₂ once = some (some twice) ∧ twice.bits = lay.size ∧
      ∀ g, bitTest twice g = true ↔ mapBit full g = true ∨ InJob lay nodes₁ cores₁ g ∨ InJob lay nodes₂ cores₂ g := by
  obtain ⟨once, hadd1, hbits1, hin1, hout1⟩ := h1.changeCores_eq hfull true
  have honce : ∀ b ∈ some once, b.bits = lay.size := by
    rintro b ⟨⟩
    exact hbits1
  obtain ⟨twice, hadd2, hbits2, hin2, hout2⟩ := h2.changeCores_eq honce true
  refine ⟨some once, twice, hadd1, hadd2, hbits2, fun g => ?_⟩
  by_cases hg2 : InJob lay nodes₂ cores₂ g
  · exact iff_of_true (hin2 g hg2) (.inr (.inr hg2))
  · rw [hout2 g hg2]
    show bitTest once g = true ↔ _
    by_cases hg1 : InJob lay nodes₁ cores₁ g
    · exact iff_of_true (hin1 g hg1) (.inr (.inl hg1))
    · rw [hout1 g hg1]
      constructor
      · exact .inl
      · rintro (h | h | h)
        · exact h
        · exact absurd h hg1
        · exact absurd h hg2

end

/-- **The core map.**  For any two jobs on one cluster, whatever their `node_req`, and any map of it: the
    test is true exactly when no core of the job is set; when it is, adding the job and removing it
    gives the map again; and two jobs can be added in either order, which adds the union of their
    cores. -/
theorem core_map_algebra (h₁ : On lay job₁ nodes₁ cores₁) (h₂ : On lay job₂ nodes₂ cores₂)
    (hfull : ∀ b ∈ full, b.bits = lay.size) :
    (∃ fits, jobFitsIntoCores lay job₁ full = some fits ∧
      (fits = true ↔ ∀ g, InJob lay nodes₁ cores₁ g → mapBit full g = false)) ∧
    (∃ added removed, addJobToCores lay job₁ full = some added ∧
      removeJobFromCores lay job₁ added = some (some removed) ∧
      (jobFitsIntoCores lay job₁ full = some true →
        (∀ g, bitTest removed g = mapBit full g) ∧ ∀ b ∈ full, removed = b)) ∧
    ∃ once once' twice, addJobToCores lay job₁ full = some once ∧
      addJobToCores lay job₂ once = some (some twice) ∧
      addJobToCores lay job₂ full = some once' ∧ addJobToCores lay job₁ once' = some (some twice) ∧
      ∀ g, bitTest twice g = true ↔
        mapBit full g = true ∨ InJob lay nodes₁ cores₁ g ∨ InJob lay nodes₂ cores₂ g := by
  refine ⟨h₁.jobFits_iff hfull, ?_, ?_⟩
  · obtain ⟨added, hadd, hbits, hin, hout⟩ := h₁.changeCores_eq hfull true
    have hadded : ∀ b ∈ some added, b.bits = lay.size := by
      rintro b ⟨⟩
      exact hbits
    obtain ⟨removed, hrem, hbits', hin', hout'⟩ := h₁.changeCores_eq hadded false
    refine ⟨some added, removed, hadd, hrem, fun hfits => ?_⟩
    obtain ⟨fits, hfits', hiff⟩ := h₁.jobFits_iff hfull
    rw [hfits] at hfits'
    have hfree := hiff.1 (Option.some.inj hfits').symm
    have hsame : ∀ g, bitTest removed g = mapBit full g := by
      intro g
      by_cases hg : InJob lay nodes₁ cores₁ g
      · rw [hin' g hg, hfree g hg]
      · rw [hout' g hg, mapBit, hout g hg]
    refine ⟨hsame, fun b hb => ext_bitTest (hbits'.trans (hfull b hb).symm) fun g => ?_⟩
    rw [hsame g, Option.mem_def.1 hb]
    rfl
  · obtain ⟨once, twice, ha, hb, hbits, htest⟩ := h₁.add_add hfull h₂
    obtain ⟨once', twice', ha', hb', hbits', htest'⟩ := h₂.add_add hfull h₁
    have hsame : twice' = twice := by
      refine ext_bitTest (hbits'.trans hbits.symm) fun g => ?_
      rw [Bool.eq_iff_iff, htest, htest', or_comm (a := InJob lay nodes₂ cores₂ g)]
    rw [hsame] at hb'
    exact ⟨once, once', twice, ha, hb, ha', hb', htest⟩

def smallLayout : Layout := ⟨[2, 3, 1], by decide, by decide⟩

/-- A job on the outer nodes, with the second core of the first and the only one of the last. -/
def outerJob : JobResources := { createJobResources with
  nodeBitmap := some (oneWord 3 0b101), coreBitmap := some (oneWord 3 0b110) }

def middleJob : JobResources := { createJobResources with
  nodeReq := 64000, nodeBitmap := some (oneWord 3 0b010),
  coreBitmap := some (oneWord 3 0b111) }

theorem core_map_algebra_small : ∃ once once' twice,
    addJobToCores smallLayout outerJob none = some once ∧
      addJobToCores smallLayout middleJob once = some (some twice) ∧
      addJobToCores smallLayout middleJob none = some once' ∧
      addJobToCores smallLayout outerJob once' = some (some twice) := by
  have h₁ : On smallLayout outerJob ⟨3, [0b101], rfl, by decide⟩ ⟨3, [0b110], rfl, by decide⟩ :=
    ⟨rfl, rfl, rfl, by decide⟩
  have h₂ : On smallLayout middleJob ⟨3, [0b010], rfl, by decide⟩ ⟨3, [0b111], rfl, by decide⟩ :=
    ⟨rfl, rfl, rfl, by decide⟩
  have hnone : ∀ b ∈ (none : Option Bitstr), b.bits = smallLayout.size := by simp
  obtain ⟨-, -, once, once', twice, ha, hb, ha', hb', -⟩ := core_map_algebra h₁ h₂ hnone
  exact ⟨once, once', twice, ha, hb, ha', hb'⟩

end Slurmpp.JobRes
