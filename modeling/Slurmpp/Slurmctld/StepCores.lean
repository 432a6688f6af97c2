/-
  The cores of job steps (`_pick_step_cores`, `step_alloc_lps` and `_step_dealloc_lps` of `src/slurmctld/step_mgr.c`).

  An exclusive step picks idle cores on each of its nodes and marks them; if there are too few it shares cores that are
  marked already.  Any other step gets a copy of the job's cores and marks none.  A step that ends takes the marks off
  all cores it has.

  1. **Picking** — one loop over the cores of a node, run twice (`pickLoop_enough`, `pickLoop_usedUp`).
  2. **Nodes** — one node (`NodePicked`), and all nodes of a step (`NodesPicked`).
  3. **Start and end** — `stepAllocLps_cases`, `stepDeallocLps_cases`.
-/
import Slurmpp.Common.BitSearch
import Slurmpp.Common.JobResources

namespace Slurmpp.StepCores

open Bitstring Blocks JobRes List Option

/-! ## The model -/

structure StepLayout where
  nodeCnt : Nat
  tasks : List (BitVec 16)

structure StepRecord where
  exclusive : Bool
  cpuCount : Nat
  cpusPerTask : BitVec 16
  pnMinMemory : BitVec 32
  stepNodeBitmap : Bitstr
  stepLayout : Option StepLayout
  coreBitmapJob : Option Bitstr

/-- The variables of `_pick_step_cores`: `core_bitmap_used`, the step's `core_bitmap_job` and `cpu_cnt`. -/
structure Picks where
  used : Bitstr
  mine : Bitstr
  cpuCnt : Int

/-- A loop over cores and sockets.  `skip` says which positions are passed over; the others are given to the
    step, and marked in the first run.  Whether the loop ended with `return`; `none` is `fatal`. -/
def pickLoop (offset : Nat → Nat → Option Int) (skip : Picks → Nat → Bool) (mark : Bool) :
    List (Nat × Nat) → Picks → Option (Picks × Bool)
  | [], p => some (p, false)
  | (coreInx, sockInx) :: rest, p =>
    match offset sockInx coreInx with
    | some (.ofNat k) =>
      if skip p k then pickLoop offset skip mark rest p
      else
        (if mark then bitSet p.used k else some p.used).bind fun used => (bitSet p.mine k).bind fun mine =>
          if p.cpuCnt - 1 = 0 then some (⟨used, mine, 0⟩, true)
          else pickLoop offset skip mark rest ⟨used, mine, p.cpuCnt - 1⟩
    | _ => none

/-- `cpu_cnt` at the start. -/
def cpusNeeded (step : StepRecord) (taskCnt : BitVec 16) : Nat :=
  if 0 < step.cpusPerTask.toNat then taskCnt.toNat * step.cpusPerTask.toNat else taskCnt.toNat

/-- `_pick_step_cores` on the node of the job with index `inx`: the marks, the step's cores and
    `last_core_inx`. -/
def pickStepCores (r : JobResources) (core : Bitstr) (step : StepRecord) (inx : Nat) (taskCnt : BitVec 16)
    (used mine : Bitstr) (lastCoreInx : Nat) : Option (Bitstr × Bitstr × Nat) :=
  match getJobResourcesCnt r inx with
  | some (shape, true) =>
    let cores := shape.cores.toNat
    let sockets := shape.sockets.toNat
    let useAllCores : Bool := taskCnt.toNat = cores * sockets
    let cpuCnt := cpusNeeded step taskCnt
    if cpuCnt < 2 ^ 31 then
      -- select idle cores first
      (pickLoop (getJobResourcesOffset r inx)
        (fun p k => !bitTest core k || (!useAllCores && bitTest p.used k)) true
        (product (range cores) (range sockets)) ⟨used, mine, cpuCnt⟩).bind fun (p, done) =>
      if done || useAllCores || cores = 0 then some (p.used, p.mine, lastCoreInx)
      else
        -- over-subscribe
        let last := (lastCoreInx + 1) % cores
        (pickLoop (getJobResourcesOffset r inx) (fun p k => !bitTest core k || bitTest p.mine k) false
          (product ((range cores).map fun i => (last + i) % cores) (range sockets)) p).map
          fun (p, _) => (p.used, p.mine, last)
    else none
  | _ => none

/-- The loop over the nodes from `i` on, in which `step_alloc_lps` and `_step_dealloc_lps` agree: for each node
    of the step its index in the job and its number of tasks.  `none` is `fatal`, or a step without enough
    entries in `tasks`. -/
def nodeLoop (nhosts : Nat) (nodes stepNodes : Bitstr) (layout : StepLayout) :
    Nat → Nat → Nat → Nat → Option (List (Nat × BitVec 16))
  | 0, _, _, _ => some []
  | n + 1, i, jobInx, stepInx =>
    if bitTest nodes i then
      if bitTest stepNodes i then
        if jobInx < nhosts then
          match layout.tasks[stepInx]? with
          | none => none
          | some tasks =>
            if stepInx + 1 = layout.nodeCnt then some [(jobInx, tasks)]
            else (nodeLoop nhosts nodes stepNodes layout n (i + 1) (jobInx + 1) (stepInx + 1)).map ((jobInx, tasks) :: ·)
        else none
      else nodeLoop nhosts nodes stepNodes layout n (i + 1) (jobInx + 1) stepInx
    else nodeLoop nhosts nodes stepNodes layout n (i + 1) jobInx stepInx

/-- The nodes of a step, from the first to the last of the job; `none` inside when the job has no nodes. -/
def stepNodes (r : JobResources) (step : StepRecord) (layout : StepLayout) :
    Option (Option (List (Nat × BitVec 16))) :=
  r.nodeBitmap.bind fun nodes => (bitFfs nodes).bind fun first =>
    if first = -1 then some none
    else (nodeLoop r.nhosts.toNat nodes step.stepNodeBitmap layout (bitFls nodes + 1 - first).toNat first.toNat
      0 0).map some

def cpusAlloc (step : StepRecord) (tasks : BitVec 16) : Nat := tasks.toNat * step.cpusPerTask.toNat

/-- The memory of the step on a node, with `MEM_PER_CPU` taken into account. -/
def memUse (step : StepRecord) (tasks : BitVec 16) : BitVec 32 :=
  if step.pnMinMemory.getMsbD 0 then
    (step.pnMinMemory &&& 0x7fffffff) * BitVec.ofNat 32 (cpusAlloc step tasks)
  else step.pnMinMemory

/-- Without details of the job's memory none is charged to the step. -/
def checkMemory (r : JobResources) (memResv : Bool) (step : StepRecord) : StepRecord :=
  if step.pnMinMemory ≠ 0 ∧ memResv ∧ (r.memoryAllocated = none ∨ r.memoryUsed = none) then
    { step with pnMinMemory := 0 }
  else step

def charge (memResv : Bool) (step : StepRecord) (r : JobResources) (inx : Nat) (tasks : BitVec 16) : JobResources :=
  let r := { r with
    cpusUsed := r.cpusUsed.map fun l => l.modify inx (· + BitVec.ofNat 16 (cpusAlloc step tasks)) }
  if step.pnMinMemory ≠ 0 ∧ memResv then
    { r with memoryUsed := r.memoryUsed.map fun l => l.modify inx (· + memUse step tasks) }
  else r

/-- Takes the charge back; what is less than nothing is nothing. -/
def uncharge (memResv : Bool) (step : StepRecord) (r : JobResources) (inx : Nat) (tasks : BitVec 16) : JobResources :=
  let r := { r with
    cpusUsed := r.cpusUsed.map fun l => l.modify inx fun n => BitVec.ofNat 16 (n.toNat - cpusAlloc step tasks) }
  if step.pnMinMemory ≠ 0 ∧ memResv then
    { r with memoryUsed := r.memoryUsed.map fun l => l.modify inx fun n =>
        BitVec.ofNat 32 (n.toNat - (memUse step tasks).toNat) }
  else r

/-- The body of the loop in `step_alloc_lps` for a step that picks its cores. -/
def pickNodes (core : Bitstr) (step : StepRecord) :
    List (Nat × BitVec 16) → JobResources → Bitstr → Bitstr → Nat → Option (Bitstr × Bitstr × Nat)
  | [], _, used, mine, last => some (used, mine, last)
  | (inx, tasks) :: rest, r, used, mine, last =>
    (pickStepCores r core step inx tasks used mine last).bind fun (used, mine, last) =>
      pickNodes core step rest r used mine last

/-- `step_alloc_lps` for a step that has no cores yet: the job's resources, the step and `last_core_inx`. -/
def stepAllocLps (memResv : Bool) (totalCpus : Nat) (r : JobResources) (step : StepRecord) (last : Nat) :
    Option (JobResources × StepRecord × Nat) :=
  match step.stepLayout with
  | none => some (r, step, last)   -- batch step
  | some layout =>
    (stepNodes r step layout).bind fun
      | none => some (r, step, last)
      | some nodes =>
        r.coreBitmap.bind fun core => r.coreBitmapUsed.bind fun used =>
          let step := checkMemory r memResv step
          let r' := nodes.foldl (fun r' e => charge memResv step r' e.1 e.2) r
          if !step.exclusive || step.cpuCount = totalCpus then
            -- just copy the bitmap to save time
            some (r', { step with coreBitmapJob := some (bitCopy core) }, last)
          else if nodes = [] then some (r', step, last)
          else
            (bitAlloc core.bits).bind fun mine =>
              (pickNodes core step nodes r used mine last).map fun (used, mine, last) =>
                ({ r' with coreBitmapUsed := some used }, { step with coreBitmapJob := some mine }, last)

def stepDeallocLps (memResv : Bool) (r : JobResources) (step : StepRecord) : Option JobResources :=
  match step.stepLayout with
  | none => some r
  | some layout =>
    (stepNodes r step layout).bind fun
      | none => some r
      | some nodes =>
        let step := checkMemory r memResv step
        let r' := nodes.foldl (fun r' e => uncharge memResv step r' e.1 e.2) r
        match step.coreBitmapJob with
        | none => some r'
        | some mine =>
          (bitNot mine).bind fun others => r.coreBitmapUsed.bind fun used => (bitAnd used others).map fun used =>
            { r' with coreBitmapUsed := some used }

/-! ## Picking cores -/

/-- What picking does: `F` holds of the cores that are given, and with `mark` they are marked. -/
structure Picked (mark : Bool) (F : Nat → Prop) (p p' : Picks) : Prop where
  used_bits : p'.used.bits = p.used.bits
  mine_bits : p'.mine.bits = p.mine.bits
  used_mono : ∀ k, bitTest p.used k = true → bitTest p'.used k = true
  mine_mono : ∀ k, bitTest p.mine k = true → bitTest p'.mine k = true
  mine_new : ∀ k, bitTest p'.mine k = true → bitTest p.mine k = true ∨ F k
  used_new : ∀ k, bitTest p'.used k = true → bitTest p.used k = true ∨ (mark = true ∧ F k ∧ bitTest p'.mine k = true)
  marked : mark = true → ∀ k, bitTest p'.mine k = true → bitTest p.mine k = true ∨ bitTest p'.used k = true

variable {offset : Nat → Nat → Option Int} {skip : Picks → Nat → Bool} {mark done : Bool}
  {order : List (Nat × Nat)} {p p' q : Picks} {F : Nat → Prop} {pos : Nat × Nat → Nat} {k : Nat}

theorem Picked.refl (mark : Bool) (F : Nat → Prop) (p : Picks) : Picked mark F p p :=
  ⟨rfl, rfl, fun _ => id, fun _ => id, fun _ => .inl, fun _ => .inl, fun _ _ => .inl⟩

theorem Picked.trans (h1 : Picked mark F p q) (h2 : Picked mark F q p') : Picked mark F p p' where
  used_bits := h2.used_bits.trans h1.used_bits
  mine_bits := h2.mine_bits.trans h1.mine_bits
  used_mono k hk := h2.used_mono k (h1.used_mono k hk)
  mine_mono k hk := h2.mine_mono k (h1.mine_mono k hk)
  mine_new k hk := (h2.mine_new k hk).elim (h1.mine_new k) .inr
  used_new k hk := (h2.used_new k hk).elim
    (fun hq => (h1.used_new k hq).imp_right fun ⟨hm, hF, hmine⟩ => ⟨hm, hF, h2.mine_mono k hmine⟩) .inr
  marked hm k hk := (h2.marked hm k hk).elim
    (fun hq => (h1.marked hm k hq).imp_right (h2.used_mono k)) .inr

theorem picked_one {used mine : Bitstr} {cnt : Int} (hF : F k)
    (hused : (if mark then bitSet p.used k else some p.used) = some used) (hmine : bitSet p.mine k = some mine) :
    Picked mark F p ⟨used, mine, cnt⟩ := by
  obtain ⟨-, hbits, htest⟩ := bitSet_eq_some hmine
  have hown : ∀ i, bitTest mine i = true ↔ i = k ∨ bitTest p.mine i = true := by simp [htest]
  have hall : used.bits = p.used.bits ∧ ∀ i, bitTest used i = true ↔ (mark = true ∧ i = k) ∨ bitTest p.used i = true := by
    cases mark with
    | false =>
      cases hused
      exact ⟨rfl, by simp⟩
    | true =>
      obtain ⟨-, hbits', htest'⟩ := bitSet_eq_some hused
      exact ⟨hbits', by simp [htest']⟩
  refine ⟨hall.1, hbits, fun i hi => (hall.2 i).2 (.inr hi), fun i hi => (hown i).2 (.inr hi), fun i hi => ?_,
    fun i hi => ?_, fun hm i hi => ?_⟩
  · rcases (hown i).1 hi with rfl | hi
    · exact .inr hF
    · exact .inl hi
  · rcases (hall.2 i).1 hi with ⟨hm, rfl⟩ | hi
    · exact .inr ⟨hm, hF, (hown i).2 (.inl rfl)⟩
    · exact .inl hi
  · rcases (hown i).1 hi with rfl | hi
    · exact .inr ((hall.2 i).2 (.inl ⟨hm, rfl⟩))
    · exact .inl hi

theorem pickLoop_cons {e : Nat × Nat} (hoff : offset e.2 e.1 = some ((pos e : Nat) : Int))
    (h : pickLoop offset skip mark (e :: order) p = some (p', done)) :
    (skip p (pos e) = true ∧ pickLoop offset skip mark order p = some (p', done)) ∨
    ∃ used mine, skip p (pos e) = false ∧ (if mark then bitSet p.used (pos e) else some p.used) = some used ∧
      bitSet p.mine (pos e) = some mine ∧
      ((p' = ⟨used, mine, 0⟩ ∧ done = true) ∨
        (p.cpuCnt - 1 ≠ 0 ∧ pickLoop offset skip mark order ⟨used, mine, p.cpuCnt - 1⟩ = some (p', done))) := by
  obtain ⟨coreInx, sockInx⟩ := e
  rw [pickLoop] at h
  rw [hoff] at h
  by_cases hskip : skip p (pos (coreInx, sockInx)) = true
  · exact .inl ⟨hskip, (if_pos hskip).symm.trans h⟩
  · replace h := (if_neg hskip).symm.trans h
    obtain ⟨used, hused, h⟩ := bind_eq_some_iff.1 h
    obtain ⟨mine, hmine, h⟩ := bind_eq_some_iff.1 h
    refine .inr ⟨used, mine, by simpa using hskip, hused, hmine, ?_⟩
    by_cases hlast : p.cpuCnt - 1 = 0
    · rw [if_pos hlast, some.injEq, Prod.mk.injEq] at h
      exact .inl ⟨h.1.symm, h.2.symm⟩
    · rw [if_neg hlast] at h
      exact .inr ⟨hlast, h⟩

/-- **The loop** gives positions of its list that it does not skip. -/
theorem picked_pickLoop (hoff : ∀ e ∈ order, offset e.2 e.1 = some ((pos e : Nat) : Int))
    (hF : ∀ q, Picked mark F p q → ∀ e ∈ order, skip q (pos e) = false → F (pos e))
    (h : pickLoop offset skip mark order p = some (p', done)) : Picked mark F p p' := by
  induction order generalizing p with
  | nil =>
    obtain ⟨rfl, -⟩ := Prod.mk.inj (some.inj h)
    exact .refl mark F p
  | cons e order ih =>
    have hoff' := (forall_mem_cons.1 hoff).2
    obtain ⟨-, h⟩ | ⟨used, mine, htake, hused, hmine, h⟩ := pickLoop_cons (hoff e mem_cons_self) h
    · exact ih hoff' (fun q hq e he => hF q hq e (mem_cons_of_mem _ he)) h
    · have hone : ∀ cnt, Picked mark F p ⟨used, mine, cnt⟩ := fun cnt =>
        picked_one (hF p (.refl mark F p) e mem_cons_self htake) hused hmine
      obtain ⟨rfl, -⟩ | ⟨-, h⟩ := h
      · exact hone 0
      · exact (hone _).trans (ih hoff' (fun q hq e he => hF q ((hone _).trans hq) e (mem_cons_of_mem _ he)) h)

/-- The positions of a list that are the job's and not in use. -/
def idle (core used : Bitstr) (l : List Nat) : List Nat := l.filter fun k => bitTest core k && !bitTest used k

/-- Which positions the first run passes over when it does not use all cores. -/
def inUse (core : Bitstr) (p : Picks) (k : Nat) : Bool := !bitTest core k || bitTest p.used k

variable {core used mine used' mine' : Bitstr}

/-- **Enough.**  A first run that goes to the end has found fewer idle cores than it needs. -/
theorem pickLoop_enough (hoff : ∀ e ∈ order, offset e.2 e.1 = some ((pos e : Nat) : Int))
    (hnodup : (order.map pos).Nodup) (hpos : 0 < p.cpuCnt)
    (h : pickLoop offset (inUse core) true order p = some (p', false)) :
    ((idle core p.used (order.map pos)).length : Int) < p.cpuCnt := by
  induction order generalizing p with
  | nil => simpa [idle] using hpos
  | cons e order ih =>
    rw [map_cons, nodup_cons] at hnodup
    have hoff' := (forall_mem_cons.1 hoff).2
    obtain ⟨hskip, h⟩ | ⟨used, mine, htake, hused, hmine, h⟩ := pickLoop_cons (hoff e mem_cons_self) h
    · have hnot : (bitTest core (pos e) && !bitTest p.used (pos e)) = false := by
        rw [inUse] at hskip
        cases hc : bitTest core (pos e) <;> simp_all
      rw [idle, map_cons, filter_cons_of_neg (by simp [hnot])]
      exact ih hoff' hnodup.2 hpos h
    · obtain ⟨-, hdone⟩ | ⟨hmore, h⟩ := h
      · cases hdone
      · obtain ⟨-, -, htest⟩ := bitSet_eq_some hused
        have hsame : idle core used (order.map pos) = idle core p.used (order.map pos) := by
          refine filter_congr fun k hk => ?_
          have hne : k ≠ pos e := fun heq => hnodup.1 (heq ▸ hk)
          rw [htest, decide_eq_false hne, Bool.false_or]
        have hlt := ih hoff' hnodup.2 (by dsimp only; omega) h
        dsimp only at hlt
        rw [hsame] at hlt
        have hle : (idle core p.used (pos e :: order.map pos)).length ≤
            (idle core p.used (order.map pos)).length + 1 := by
          rw [idle, filter_cons]
          split_ifs <;> simp [idle]
        rw [map_cons]
        omega

/-- **Used up.**  After a first run that goes to the end every core of the job is in use. -/
theorem pickLoop_usedUp (hoff : ∀ e ∈ order, offset e.2 e.1 = some ((pos e : Nat) : Int))
    (h : pickLoop offset (inUse core) true order p = some (p', false)) :
    ∀ e ∈ order, bitTest core (pos e) = true → bitTest p'.used (pos e) = true := by
  induction order generalizing p with
  | nil => simp
  | cons e order ih =>
    have hoff' := (forall_mem_cons.1 hoff).2
    have hmono : ∀ {q : Picks}, pickLoop offset (inUse core) true order q = some (p', false) →
        ∀ k, bitTest q.used k = true → bitTest p'.used k = true := fun hq =>
      (picked_pickLoop (F := fun _ => True) hoff' (fun _ _ _ _ _ => trivial) hq).used_mono
    obtain ⟨hskip, hrest⟩ | ⟨used, mine, htake, hused, hmine, hrest⟩ := pickLoop_cons (hoff e mem_cons_self) h
    · refine forall_mem_cons.2 ⟨fun hcore => ?_, ih hoff' hrest⟩
      exact hmono hrest _ (by simpa [inUse, hcore] using hskip)
    · obtain ⟨-, hdone⟩ | ⟨-, hrest⟩ := hrest
      · cases hdone
      · refine forall_mem_cons.2 ⟨fun hcore => ?_, ih hoff' hrest⟩
        exact hmono hrest _ (by simp [(bitSet_eq_some hused).2.2])

/-! ## One node -/

/-- The positions of a node in the job's bitmaps. -/
def slice (shapes : List Shape) (inx : Nat) : List Nat :=
  range' (start (coresOf shapes) inx) (coresOf shapes inx)

variable {shapes : List Shape} {inx : Nat}

theorem mem_slice : k ∈ slice shapes inx ↔
    start (coresOf shapes) inx ≤ k ∧ k < start (coresOf shapes) inx + coresOf shapes inx := by
  rw [slice, mem_range'_1]

theorem slice_disjoint {inx' : Nat} (hlt : inx < inx') (hk : k ∈ slice shapes inx) : k ∉ slice shapes inx' := by
  intro hk'
  rw [mem_slice] at hk hk'
  have := start_add_le (f := coresOf shapes) hlt
  omega

def corePos (shapes : List Shape) (inx cores : Nat) (e : Nat × Nat) : Nat :=
  start (coresOf shapes) inx + (cores * e.2 + e.1)

theorem perm_slice {shape : Shape} (hn : shapes[inx]? = some shape) :
    ((product (range shape.cores.toNat) (range shape.sockets.toNat)).map
      (corePos shapes inx shape.cores.toNat)).Perm (slice shapes inx) := by
  have hinj : ∀ e ∈ product (range shape.cores.toNat) (range shape.sockets.toNat),
      ∀ e' ∈ product (range shape.cores.toNat) (range shape.sockets.toNat),
      corePos shapes inx shape.cores.toNat e = corePos shapes inx shape.cores.toNat e' → e = e' := by
    rintro ⟨c, s⟩ he ⟨c', s'⟩ he' heq
    rw [pair_mem_product, mem_range, mem_range] at he he'
    have heq : shape.cores.toNat * s + c = shape.cores.toNat * s' + c' := Nat.add_left_cancel heq
    have hc : c = c' := by
      simpa [Nat.mul_add_mod, Nat.mod_eq_of_lt he.1, Nat.mod_eq_of_lt he'.1] using
        congrArg (· % shape.cores.toNat) heq
    subst hc
    have hs := Nat.eq_of_mul_eq_mul_left (by omega : 0 < shape.cores.toNat) (Nat.add_right_cancel heq)
    rw [hs]
  refine (perm_ext_iff_of_nodup ?_ nodup_range').2 fun k => ?_
  · exact List.Nodup.map_on hinj (nodup_range.product nodup_range)
  · rw [← slice, mem_slice, coresOf_of_lt hn, List.mem_map]
    constructor
    · rintro ⟨⟨c, s⟩, he, rfl⟩
      rw [pair_mem_product, mem_range, mem_range] at he
      have := mul_add_lt_count he.2 he.1
      simp only [corePos]
      omega
    · rintro ⟨hlo, hhi⟩
      have hin : k - start (coresOf shapes) inx < shape.count := by omega
      obtain ⟨s, c, hs, hc, hk⟩ := exists_core_of_lt hin
      refine ⟨(c, s), by rw [pair_mem_product, mem_range, mem_range]; exact ⟨hc, hs⟩, ?_⟩
      simp only [corePos]
      omega

/-- What `_pick_step_cores` does on a node with the positions `l` to a step that needs `need` CPUs. -/
structure NodePicked (core : Bitstr) (l : List Nat) (need : Nat) (used mine used' mine' : Bitstr) : Prop where
  used_bits : used'.bits = used.bits
  mine_bits : mine'.bits = mine.bits
  used_mono : ∀ k, bitTest used k = true → bitTest used' k = true
  mine_mono : ∀ k, bitTest mine k = true → bitTest mine' k = true
  mine_new : ∀ k, bitTest mine' k = true → bitTest mine k = true ∨ (k ∈ l ∧ bitTest core k = true)
  used_new : ∀ k, bitTest used' k = true → bitTest used k = true ∨ (k ∈ l ∧ bitTest mine' k = true)
  marked : ∀ k, bitTest mine' k = true → bitTest mine k = true ∨ bitTest used' k = true
  apart : 0 < need → need ≤ (idle core used l).length →
    ∀ k, bitTest mine' k = true → bitTest mine k = true ∨ bitTest used k = false

theorem cpusNeeded_ge (step : StepRecord) (taskCnt : BitVec 16) : taskCnt.toNat ≤ cpusNeeded step taskCnt := by
  rw [cpusNeeded]
  split_ifs with hpos
  · exact Nat.le_mul_of_pos_right _ hpos
  · exact le_rfl

variable {l : List Nat} {need : Nat}

theorem all_idle (h : l.length ≤ (idle core used l).length) (hk : k ∈ l) : bitTest used k = false := by
  have hall := (length_filter_eq_length_iff.1 (le_antisymm (length_filter_le ..) h)) k hk
  simpa using (Bool.and_eq_true_iff.1 hall).2

theorem NodePicked.of_first {useAll : Bool} (hpos : ∀ e ∈ order, pos e ∈ l)
    (hoff : ∀ e ∈ order, offset e.2 e.1 = some ((pos e : Nat) : Int))
    (h : pickLoop offset (fun p k => !bitTest core k || (!useAll && bitTest p.used k)) true order
      ⟨used, mine, (need : Int)⟩ = some (p', done))
    (hall : useAll = true → l.length ≤ need) : NodePicked core l need used mine p'.used p'.mine := by
  have hp : Picked true (fun k => k ∈ l ∧ bitTest core k = true ∧ (useAll = false → bitTest used k = false))
      ⟨used, mine, (need : Int)⟩ p' := by
    refine picked_pickLoop hoff (fun q hq e he htake => ?_) h
    simp only [Bool.or_eq_false_iff, Bool.not_eq_false', Bool.and_eq_false_iff] at htake
    refine ⟨hpos e he, htake.1, fun huse => ?_⟩
    by_contra hused
    have hq' := hq.used_mono (pos e) (by simpa using hused)
    simp [huse, hq'] at htake
  refine ⟨hp.used_bits, hp.mine_bits, hp.used_mono, hp.mine_mono, fun k hk => ?_, fun k hk => ?_, hp.marked rfl,
    fun hneed hle k hk => ?_⟩
  · exact (hp.mine_new k hk).imp_right fun hF => ⟨hF.1, hF.2.1⟩
  · exact (hp.used_new k hk).imp_right fun hF => ⟨hF.2.1.1, hF.2.2⟩
  · refine (hp.mine_new k hk).imp_right fun hF => ?_
    cases huse : useAll with
    | false => exact hF.2.2 huse
    | true => exact all_idle ((hall huse).trans hle) hF.1

theorem NodePicked.sharing (hpicked : NodePicked core l need used mine p.used p.mine)
    (hover : Picked false (fun k => k ∈ l ∧ bitTest core k = true ∧ bitTest p.used k = true) p p')
    (hfew : 0 < need → ¬need ≤ (idle core used l).length) : NodePicked core l need used mine p'.used p'.mine := by
  have hused : ∀ k, bitTest p'.used k = true ↔ bitTest p.used k = true := fun k =>
    ⟨fun hk => (hover.used_new k hk).resolve_right fun hF => absurd hF.1 (by decide), hover.used_mono k⟩
  refine ⟨hover.used_bits.trans hpicked.used_bits, hover.mine_bits.trans hpicked.mine_bits,
    fun k hk => hover.used_mono k (hpicked.used_mono k hk), fun k hk => hover.mine_mono k (hpicked.mine_mono k hk),
    fun k hk => ?_, fun k hk => ?_, fun k hk => ?_, fun hneed hle => absurd hle (hfew hneed)⟩
  · rcases hover.mine_new k hk with hk | hF
    · exact hpicked.mine_new k hk
    · exact .inr ⟨hF.1, hF.2.1⟩
  · exact (hpicked.used_new k ((hused k).1 hk)).imp_right fun hF => ⟨hF.1, hover.mine_mono k hF.2⟩
  · rw [hused]
    rcases hover.mine_new k hk with hk | hF
    · exact hpicked.marked k hk
    · exact .inr hF.2.2

variable {step : StepRecord} {job r : JobResources}

theorem nodePicked_pickStepCores {cores : Bitstr} {groups : List Group}
    {taskCnt : BitVec 16} {last last' : Nat} (hjob : Addressed job shapes cores groups) (hinx : inx < shapes.length)
    (h : pickStepCores job cores step inx taskCnt used mine last = some (used', mine', last')) :
    NodePicked cores (slice shapes inx) (cpusNeeded step taskCnt) used mine used' mine' := by
  obtain ⟨shape, hn⟩ : ∃ shape, shapes[inx]? = some shape := ⟨_, getElem?_eq_getElem hinx⟩
  have hoff : ∀ e : Nat × Nat, e.1 < shape.cores.toNat → e.2 < shape.sockets.toNat →
      getJobResourcesOffset job inx e.2 e.1 = some ((corePos shapes inx shape.cores.toNat e : Nat) : Int) :=
    fun e hc hs => hjob.offset_core hn hs hc
  have hin : ∀ e : Nat × Nat, e.1 < shape.cores.toNat → e.2 < shape.sockets.toNat →
      corePos shapes inx shape.cores.toNat e ∈ slice shapes inx := fun e hc hs =>
    (perm_slice hn).subset (mem_map_of_mem (mem_product.2 ⟨mem_range.2 hc, mem_range.2 hs⟩))
  obtain ⟨ok, hcnt, hok⟩ := hjob.counts inx
  obtain rfl := (hok (by omega)).2 hinx
  rw [pickStepCores, hcnt, hn, getD_some] at h
  dsimp only at h
  split_ifs at h with hsmall
  obtain ⟨⟨p, done⟩, hfirst, h⟩ := bind_eq_some_iff.1 h
  have hmem : ∀ e ∈ product (range shape.cores.toNat) (range shape.sockets.toNat),
      e.1 < shape.cores.toNat ∧ e.2 < shape.sockets.toNat := fun e he => by
    simpa using mem_product.1 he
  have hpicked := NodePicked.of_first (fun e he => hin e (hmem e he).1 (hmem e he).2)
    (fun e he => hoff e (hmem e he).1 (hmem e he).2) hfirst (fun huse => by
      have huse : taskCnt.toNat = shape.cores.toNat * shape.sockets.toNat := of_decide_eq_true huse
      have hlen : (slice shapes inx).length = shape.count := by
        rw [slice, length_range', coresOf_of_lt hn]
      rw [hlen, Shape.count, Nat.mul_comm, ← huse]
      exact cpusNeeded_ge step taskCnt)
  by_cases hend : (done || decide (taskCnt.toNat = shape.cores.toNat * shape.sockets.toNat) ||
      decide (shape.cores.toNat = 0)) = true
  · rw [if_pos (by simpa using hend)] at h
    cases h
    exact hpicked
  · rw [if_neg (by simpa using hend)] at h
    simp only [Bool.or_eq_true, not_or, Bool.not_eq_true, decide_eq_false_iff_not] at hend
    obtain ⟨⟨hdone, huse⟩, hcores⟩ := hend
    subst hdone
    obtain ⟨⟨p', done'⟩, hsecond, hp'⟩ := map_eq_some_iff.1 h
    cases hp'
    have hfirst' : pickLoop (getJobResourcesOffset job inx) (inUse cores) true
        (product (range shape.cores.toNat) (range shape.sockets.toNat))
        ⟨used, mine, (cpusNeeded step taskCnt : Int)⟩ = some (p, false) := by
      rw [← hfirst, decide_eq_false huse]
      simp only [Bool.not_false, Bool.true_and]
      rfl
    -- there were too few idle cores, and all cores of the job are in use by now
    have hup := pickLoop_usedUp (fun e he => hoff e (hmem e he).1 (hmem e he).2) hfirst'
    have hfew : 0 < cpusNeeded step taskCnt →
        ¬cpusNeeded step taskCnt ≤ (idle cores used (slice shapes inx)).length := fun hneed hle => by
      have hlt := pickLoop_enough
        (fun e he => hoff e (hmem e he).1 (hmem e he).2)
        ((perm_slice hn).nodup_iff.2 nodup_range') (by dsimp only; omega) hfirst'
      rw [idle, ((perm_slice hn).filter _).length_eq] at hlt
      rw [idle] at hle
      dsimp only at hlt
      omega
    have hmem' : ∀ e ∈ product ((range shape.cores.toNat).map fun i =>
        ((last + 1) % shape.cores.toNat + i) % shape.cores.toNat) (range shape.sockets.toNat),
        e.1 < shape.cores.toNat ∧ e.2 < shape.sockets.toNat := fun e he => by
      obtain ⟨hc, hs⟩ := mem_product.1 he
      obtain ⟨i, -, hi⟩ := mem_map.1 hc
      exact ⟨hi ▸ Nat.mod_lt _ (by omega), mem_range.1 hs⟩
    have hover : Picked false (fun k => k ∈ slice shapes inx ∧ bitTest cores k = true ∧ bitTest p.used k = true)
        p p' := by
      refine picked_pickLoop (fun e he => hoff e (hmem' e he).1 (hmem' e he).2) (fun q _ e he htake => ?_) hsecond
      have hcore : bitTest cores (corePos shapes inx shape.cores.toNat e) = true := by
        simp only [Bool.or_eq_false_iff, Bool.not_eq_false'] at htake
        exact htake.1
      refine ⟨hin e (hmem' e he).1 (hmem' e he).2, hcore, hup e ?_ hcore⟩
      exact mem_product.2 ⟨mem_range.2 (hmem' e he).1, mem_range.2 (hmem' e he).2⟩
    exact hpicked.sharing hover hfew

/-! ## All nodes of a step -/

variable {layout : StepLayout}

theorem nodeLoop_sorted {nhosts n i jobInx stepInx : Nat} {nodes stepNodes : Bitstr} {found : List (Nat × BitVec 16)}
    (h : nodeLoop nhosts nodes stepNodes layout n i jobInx stepInx = some found) :
    (∀ e ∈ found, jobInx ≤ e.1 ∧ e.1 < nhosts ∧ e.2 ∈ layout.tasks) ∧ found.Pairwise (·.1 < ·.1) := by
  fun_induction nodeLoop generalizing found with
  | case1 =>
    cases h
    simp
  | case2 | case5 => cases h
  | case3 n i jobInx stepInx _ _ hinx tasks htasks =>
    cases h
    simp [hinx, mem_of_getElem? htasks]
  | case4 n i jobInx stepInx _ _ hinx tasks htasks _ ih =>
    obtain ⟨rest, hrest, rfl⟩ := map_eq_some_iff.1 h
    obtain ⟨hall, hsorted⟩ := ih hrest
    refine ⟨forall_mem_cons.2 ⟨⟨le_rfl, hinx, mem_of_getElem? htasks⟩, fun e he => ?_⟩,
      pairwise_cons.2 ⟨fun e he => (hall e he).1, hsorted⟩⟩
    exact ⟨by have := (hall e he).1; omega, (hall e he).2⟩
  | case6 n i jobInx stepInx _ _ ih =>
    obtain ⟨hall, hsorted⟩ := ih h
    exact ⟨fun e he => ⟨by have := (hall e he).1; omega, (hall e he).2⟩, hsorted⟩
  | case7 n i jobInx stepInx _ ih => exact ih h

theorem stepNodes_sorted {nodes : List (Nat × BitVec 16)} (h : stepNodes r step layout = some (some nodes)) :
    (∀ e ∈ nodes, e.1 < r.nhosts.toNat ∧ e.2 ∈ layout.tasks) ∧ nodes.Pairwise (·.1 < ·.1) := by
  obtain ⟨bitmap, -, h⟩ := bind_eq_some_iff.1 h
  obtain ⟨first, -, h⟩ := bind_eq_some_iff.1 h
  split_ifs at h with hempty
  · cases h
  · obtain ⟨found, hfound, heq⟩ := map_eq_some_iff.1 h
    cases heq
    obtain ⟨hall, hsorted⟩ := nodeLoop_sorted hfound
    exact ⟨fun e he => (hall e he).2, hsorted⟩

def HasNodes (r : JobResources) : Prop :=
  ∃ bitmap first, r.nodeBitmap = some bitmap ∧ bitFfs bitmap = some first ∧ first ≠ -1

theorem stepNodes_isSome_iff {found : Option (List (Nat × BitVec 16))} (h : stepNodes r step layout = some found) :
    found.isSome = true ↔ HasNodes r := by
  obtain ⟨bitmap, hbitmap, h⟩ := bind_eq_some_iff.1 h
  obtain ⟨first, hfirst, h⟩ := bind_eq_some_iff.1 h
  split_ifs at h with hempty
  · cases h
    refine ⟨fun hsome => absurd hsome (by simp), fun ⟨bitmap', first', hbitmap', hfirst', hne⟩ => ?_⟩
    rw [hbitmap, some.injEq] at hbitmap'
    rw [← hbitmap', hfirst, some.injEq] at hfirst'
    exact absurd (hfirst'.symm.trans hempty) hne
  · obtain ⟨nodes, -, rfl⟩ := map_eq_some_iff.1 h
    exact ⟨fun _ => ⟨bitmap, first, hbitmap, hfirst, hempty⟩, fun _ => rfl⟩

/-- What is done on all nodes of a step. -/
structure NodesPicked (core : Bitstr) (shapes : List Shape) (step : StepRecord) (nodes : List (Nat × BitVec 16))
    (used mine used' mine' : Bitstr) : Prop where
  used_bits : used'.bits = used.bits
  mine_bits : mine'.bits = mine.bits
  used_mono : ∀ k, bitTest used k = true → bitTest used' k = true
  mine_mono : ∀ k, bitTest mine k = true → bitTest mine' k = true
  mine_new : ∀ k, bitTest mine' k = true →
    bitTest mine k = true ∨ ((∃ e ∈ nodes, k ∈ slice shapes e.1) ∧ bitTest core k = true)
  used_new : ∀ k, bitTest used' k = true → bitTest used k = true ∨ bitTest mine' k = true
  marked : ∀ k, bitTest mine' k = true → bitTest mine k = true ∨ bitTest used' k = true
  apart : ∀ e ∈ nodes, 0 < cpusNeeded step e.2 →
    cpusNeeded step e.2 ≤ (idle core used (slice shapes e.1)).length →
    ∀ k ∈ slice shapes e.1, bitTest mine' k = true → bitTest mine k = true ∨ bitTest used k = false

/-- **All nodes.**  A node is not touched on the way to another. -/
theorem nodesPicked_pickNodes {cores : Bitstr} {groups : List Group}
    {nodes : List (Nat × BitVec 16)} {last last' : Nat} (hjob : Addressed job shapes cores groups)
    (hin : ∀ e ∈ nodes, e.1 < shapes.length) (hsorted : nodes.Pairwise (·.1 < ·.1))
    (h : pickNodes cores step nodes job used mine last = some (used', mine', last')) :
    NodesPicked cores shapes step nodes used mine used' mine' := by
  induction nodes generalizing used mine last with
  | nil =>
    cases h
    exact ⟨rfl, rfl, fun _ => id, fun _ => id, fun _ => .inl, fun _ => .inl, fun _ => .inl, by simp⟩
  | cons e nodes ih =>
    obtain ⟨inx, tasks⟩ := e
    rw [pickNodes] at h
    obtain ⟨⟨used1, mine1, last1⟩, hhead, h⟩ := bind_eq_some_iff.1 h
    have h1 := nodePicked_pickStepCores hjob (hin _ mem_cons_self) hhead
    rw [pairwise_cons] at hsorted
    have h2 := ih (forall_mem_cons.1 hin).2 hsorted.2 h
    refine ⟨h2.used_bits.trans h1.used_bits, h2.mine_bits.trans h1.mine_bits,
      fun k hk => h2.used_mono k (h1.used_mono k hk), fun k hk => h2.mine_mono k (h1.mine_mono k hk),
      fun k hk => ?_, fun k hk => ?_, fun k hk => ?_, fun e he hneed hle k hk hmine => ?_⟩
    · rcases h2.mine_new k hk with hk | ⟨⟨e, he, hslice⟩, hcore⟩
      · exact (h1.mine_new k hk).imp_right fun hF => ⟨⟨_, mem_cons_self, hF.1⟩, hF.2⟩
      · exact .inr ⟨⟨e, mem_cons_of_mem _ he, hslice⟩, hcore⟩
    · rcases h2.used_new k hk with hk | hk
      · exact (h1.used_new k hk).imp_right fun hF => h2.mine_mono k hF.2
      · exact .inr hk
    · rcases h2.marked k hk with hk | hk
      · exact (h1.marked k hk).imp_right (h2.used_mono k)
      · exact .inr hk
    · obtain rfl | he := mem_cons.1 he
      · -- the other nodes give nothing here
        rcases h2.mine_new k hmine with hmine | ⟨⟨e', he', hslice⟩, -⟩
        · exact h1.apart hneed hle k hmine
        · exact absurd hslice (slice_disjoint (hsorted.1 e' he') hk)
      · -- nor has the first node changed anything on this one
        have hother : ∀ k ∈ slice shapes e.1, k ∉ slice shapes inx := fun k hk hk' =>
          slice_disjoint (hsorted.1 e he) hk' hk
        have hsame : idle cores used1 (slice shapes e.1) = idle cores used (slice shapes e.1) := by
          refine filter_congr fun k hk => ?_
          have : bitTest used1 k = bitTest used k := by
            rw [Bool.eq_iff_iff]
            exact ⟨fun hu => (h1.used_new k hu).resolve_right fun hF => hother k hk hF.1, h1.used_mono k⟩
          rw [this]
        rcases h2.apart e he hneed (by rw [hsame]; exact hle) k hk hmine with hmine | hfree
        · exact .inl ((h1.mine_new k hmine).resolve_right fun hF => hother k hk hF.1)
        · refine .inr (Bool.eq_false_iff.2 fun hu => ?_)
          rw [h1.used_mono k hu] at hfree
          cases hfree

/-! ## Charges -/

/-- The same resources with other charges. -/
def Charged (r r' : JobResources) : Prop := ∃ cpus mem, r' = { r with cpusUsed := cpus, memoryUsed := mem }

variable {r r' r'' : JobResources} {step step' : StepRecord} {memResv : Bool} {totalCpus last last' : Nat}
  {nodes : List (Nat × BitVec 16)}

theorem Charged.refl (r : JobResources) : Charged r r := ⟨_, _, rfl⟩

theorem Charged.trans (h : Charged r r') (h' : Charged r' r'') : Charged r r'' := by
  obtain ⟨cpus, mem, rfl⟩ := h
  obtain ⟨cpus', mem', rfl⟩ := h'
  exact ⟨cpus', mem', rfl⟩

theorem charged_charge (tasks : BitVec 16) : Charged r (charge memResv step r inx tasks) := by
  unfold charge
  split_ifs <;> exact ⟨_, _, rfl⟩

theorem charged_uncharge (tasks : BitVec 16) : Charged r (uncharge memResv step r inx tasks) := by
  unfold uncharge
  split_ifs <;> exact ⟨_, _, rfl⟩

theorem charged_foldl {f : JobResources → Nat × BitVec 16 → JobResources} (hf : ∀ r e, Charged r (f r e))
    (nodes : List (Nat × BitVec 16)) (r : JobResources) : Charged r (nodes.foldl f r) := by
  induction nodes generalizing r with
  | nil => exact .refl r
  | cons e nodes ih => exact (hf r e).trans (ih (f r e))

@[simp] theorem checkMemory_same : (checkMemory r memResv step).exclusive = step.exclusive ∧
    (checkMemory r memResv step).coreBitmapJob = step.coreBitmapJob ∧
    (checkMemory r memResv step).cpuCount = step.cpuCount ∧
    (checkMemory r memResv step).stepLayout = step.stepLayout ∧
    cpusNeeded (checkMemory r memResv step) = cpusNeeded step := by
  unfold checkMemory
  split_ifs <;> exact ⟨rfl, rfl, rfl, rfl, rfl⟩

/-- **What `step_alloc_lps` does.**  It gives no cores, or a copy of the job's, or it picks. -/
theorem stepAllocLps_cases (hnew : step.coreBitmapJob = none)
    (h : stepAllocLps memResv totalCpus r step last = some (r', step', last')) :
    step'.exclusive = step.exclusive ∧
    (step'.coreBitmapJob = none ∨ (step'.stepLayout ≠ none ∧ HasNodes r)) ∧ ∃ r1, Charged r r1 ∧
      ((r' = r1 ∧ step'.coreBitmapJob = none) ∨
      (r' = r1 ∧ (step.exclusive = true → step.cpuCount = totalCpus)) ∨
      ∃ layout nodes core used mine used' mine', step.exclusive = true ∧ step.stepLayout = some layout ∧
        stepNodes r step layout = some (some nodes) ∧ r.coreBitmap = some core ∧ r.coreBitmapUsed = some used ∧
        bitAlloc core.bits = some mine ∧
        pickNodes core (checkMemory r memResv step) nodes r used mine last = some (used', mine', last') ∧
        r' = { r1 with coreBitmapUsed := some used' } ∧ step'.coreBitmapJob = some mine') := by
  unfold stepAllocLps at h
  cases hlayout : step.stepLayout with
  | none =>
    rw [hlayout] at h
    cases h
    exact ⟨rfl, .inl hnew, r, .refl r, .inl ⟨rfl, hnew⟩⟩
  | some layout =>
    rw [hlayout] at h
    obtain ⟨found, hnodes, h⟩ := bind_eq_some_iff.1 h
    have hsome := stepNodes_isSome_iff hnodes
    cases found with
    | none =>
      cases h
      exact ⟨rfl, .inl hnew, r, .refl r, .inl ⟨rfl, hnew⟩⟩
    | some nodes =>
      obtain ⟨core, hcore, h⟩ := bind_eq_some_iff.1 h
      obtain ⟨used, hused, h⟩ := bind_eq_some_iff.1 h
      have hhas : ∀ b : Option Bitstr, { checkMemory r memResv step with coreBitmapJob := b }.coreBitmapJob = none ∨
          ({ checkMemory r memResv step with coreBitmapJob := b }.stepLayout ≠ none ∧ HasNodes r) := fun b =>
        .inr ⟨by simp [hlayout], hsome.1 rfl⟩
      have hcharged := charged_foldl (f := fun r' e => charge memResv (checkMemory r memResv step) r' e.1 e.2)
        (fun r' e => charged_charge e.2) nodes r
      by_cases hcopy : (!(checkMemory r memResv step).exclusive ||
          decide ((checkMemory r memResv step).cpuCount = totalCpus)) = true
      · rw [if_pos hcopy] at h
        cases h
        refine ⟨checkMemory_same.1, hhas _, _, hcharged, .inr (.inl ⟨rfl, fun hex => ?_⟩)⟩
        simpa [hex] using hcopy
      · rw [if_neg hcopy] at h
        have hex : step.exclusive = true := by
          by_contra hno
          exact hcopy (by simp [Bool.eq_false_iff.2 hno])
        by_cases hnone : nodes = []
        · rw [if_pos hnone] at h
          cases h
          exact ⟨checkMemory_same.1, .inl (checkMemory_same.2.1.trans hnew), _, hcharged,
            .inl ⟨rfl, checkMemory_same.2.1.trans hnew⟩⟩
        · rw [if_neg hnone] at h
          obtain ⟨mine, hmine, h⟩ := bind_eq_some_iff.1 h
          obtain ⟨⟨used', mine', last1⟩, hpick, heq⟩ := map_eq_some_iff.1 h
          cases heq
          exact ⟨checkMemory_same.1, hhas _, _, hcharged, .inr (.inr ⟨layout, nodes, core, used, mine, used', mine',
            hex, rfl, hnodes, hcore, hused, hmine, hpick, rfl, rfl⟩)⟩

theorem stepDeallocLps_cases (h : stepDeallocLps memResv r step = some r') : ∃ r1, Charged r r1 ∧
    ((r' = r1 ∧ (step.stepLayout = none ∨ step.coreBitmapJob = none ∨ ¬HasNodes r)) ∨
      ∃ mine others used used', step.coreBitmapJob = some mine ∧ bitNot mine = some others ∧
        r.coreBitmapUsed = some used ∧ bitAnd used others = some used' ∧
        r' = { r1 with coreBitmapUsed := some used' }) := by
  revert h
  fun_cases stepDeallocLps with
  | case1 hlayout =>
    rintro ⟨⟩
    exact ⟨r, .refl r, .inl ⟨rfl, .inl hlayout⟩⟩
  | case2 layout hlayout =>
    intro h
    obtain ⟨found, hnodes, h⟩ := bind_eq_some_iff.1 h
    cases found with
    | none =>
      cases h
      have hsome := stepNodes_isSome_iff hnodes
      exact ⟨r, .refl r, .inl ⟨rfl, .inr (.inr fun hhas => absurd (hsome.2 hhas) (by decide))⟩⟩
    | some nodes =>
      dsimp only at h
      have hcharged := charged_foldl (f := fun r' e => uncharge memResv (checkMemory r memResv step) r' e.1 e.2)
        (fun r' e => charged_uncharge e.2) nodes r
      rw [checkMemory_same.2.1] at h
      cases hmine : step.coreBitmapJob with
      | none =>
        rw [hmine] at h
        cases h
        exact ⟨_, hcharged, .inl ⟨rfl, .inr (.inl rfl)⟩⟩
      | some mine =>
        rw [hmine] at h
        obtain ⟨others, hothers, h⟩ := bind_eq_some_iff.1 h
        obtain ⟨used, hused, h⟩ := bind_eq_some_iff.1 h
        obtain ⟨used', hand, rfl⟩ := map_eq_some_iff.1 h
        exact ⟨_, hcharged, .inr ⟨mine, others, used, used', rfl, hothers, hused, hand, rfl⟩⟩

end Slurmpp.StepCores
