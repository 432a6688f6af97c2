/-
  Who holds the cores of a job while its steps start and end in any order.

  1. **Marks** — as long as no exclusive step is given a copy and no step ends that shares a core with another
     exclusive one, the marks are the cores of the running exclusive steps (`Marked`), so that a step gets
     cores of its own where there are enough of them (`exclusive_cores_apart`).

  2. **The slip** — a step that is not exclusive has all cores of the job and takes off marks it never set
     (`marks_lost`).
-/
import Slurmpp.Slurmctld.StepCores

namespace Slurmpp.StepCores

open Bitstring Blocks JobRes List

/-! ## All steps of a job -/

/-- A job with its running steps; `last_core_inx` is static in the source. -/
structure JobSteps where
  res : JobResources
  lastCoreInx : Nat
  running : List (Nat × StepRecord)

inductive Move
  | start (id : Nat) (step : StepRecord)
  | finish (id : Nat)

/-- The cores a step has. -/
def StepRecord.holds (step : StepRecord) (k : Nat) : Bool := step.coreBitmapJob.any (bitTest · k)

/-- Whether a running exclusive step has the core. -/
def JobSteps.held (s : JobSteps) (k : Nat) : Bool := s.running.any fun e => e.2.exclusive && e.2.holds k

/-- Whether the core is in `core_bitmap_used`. -/
def JobSteps.marked (s : JobSteps) (k : Nat) : Bool := s.res.coreBitmapUsed.any (bitTest · k)

def JobSteps.free (s : JobSteps) (core : Bitstr) (l : List Nat) : List Nat :=
  l.filter fun k => bitTest core k && !s.held k

/-- The steps of a job start and end in any order. -/
def jobSteps (memResv : Bool) (totalCpus : Nat) : Machine JobSteps Move where
  step s
    | .start id step =>
      if s.running.any (·.1 == id) || step.coreBitmapJob.isSome then none
      else (stepAllocLps memResv totalCpus s.res step s.lastCoreInx).map fun (res, step, last) =>
        ⟨res, last, (id, step) :: s.running⟩
    | .finish id =>
      (s.running.find? (·.1 == id)).bind fun e => (stepDeallocLps memResv s.res e.2).map fun res =>
        { s with res := res, running := s.running.filter (·.1 != id) }

/-- An exclusive step that starts has not as many CPUs as the job and has tasks on each of its nodes; a step
    that ends shares no core with another running exclusive step. -/
def Move.Fits (totalCpus : Nat) (s : JobSteps) : Move → Prop
  | .start _ step => step.exclusive = true → step.cpuCount ≠ totalCpus ∧
      ∀ layout, step.stepLayout = some layout → ∀ tasks ∈ layout.tasks, 0 < tasks.toNat
  | .finish id => ∀ e ∈ s.running, e.1 = id → ∀ e' ∈ s.running, e'.1 ≠ id → e'.2.exclusive = true →
      ∀ k, ¬(e.2.holds k = true ∧ e'.2.holds k = true)

/-- **The marks are the cores of the running exclusive steps.** -/
structure Marked (job : JobResources) (cores : Bitstr) (s : JobSteps) : Prop where
  res : ∃ cpus mem used,
    s.res = { job with cpusUsed := cpus, memoryUsed := mem, coreBitmapUsed := some used } ∧ used.bits = cores.bits
  marks : ∀ k, s.marked k = s.held k
  ids : (s.running.map Prod.fst).Nodup
  nodes : ∀ e ∈ s.running, e.2.coreBitmapJob = none ∨ (e.2.stepLayout ≠ none ∧ HasNodes job)

variable {job : JobResources} {shapes : List Shape} {cores used mine used' mine' : Bitstr} {groups : List Group}
  {s s' : JobSteps} {step step' : StepRecord} {memResv : Bool} {totalCpus last last' id k : Nat}
  {nodes : List (Nat × BitVec 16)}

theorem addressed_used (h : Addressed job shapes cores groups) (cpus : Option (List (BitVec 16)))
    (mem : Option (List (BitVec 32))) (used : Option Bitstr) :
    Addressed { job with cpusUsed := cpus, memoryUsed := mem, coreBitmapUsed := used } shapes cores groups :=
  ⟨h.groups, h.pos, h.expand, h.length, h.bitmap, h.bits⟩

theorem start_cases (h : (jobSteps memResv totalCpus).step s (.start id step) = some s') :
    (∀ e ∈ s.running, e.1 ≠ id) ∧ step.coreBitmapJob = none ∧
      ∃ step', stepAllocLps memResv totalCpus s.res step s.lastCoreInx = some (s'.res, step', s'.lastCoreInx) ∧
        s'.running = (id, step') :: s.running := by
  obtain ⟨hnew, h⟩ := Option.ite_none_left_eq_some.1 h
  obtain ⟨⟨res, step', last⟩, halloc, rfl⟩ := Option.map_eq_some_iff.1 h
  simp only [Bool.or_eq_true, not_or, Option.not_isSome_iff_eq_none, any_eq_true, beq_iff_eq, not_exists,
    not_and] at hnew
  exact ⟨hnew.1, hnew.2, step', halloc, rfl⟩

section

variable (hs : Marked job cores s)
include hs

theorem Marked.held_eq (hused : s.res.coreBitmapUsed = some used) (k : Nat) :
    s.held k = bitTest used k := by
  rw [← hs.marks, JobSteps.marked, hused]
  rfl

theorem Marked.used_bits (hused : s.res.coreBitmapUsed = some used) :
    used.bits = cores.bits := by
  obtain ⟨cpus, mem, used0, hres, hbits⟩ := hs.res
  rw [hres] at hused
  cases hused
  exact hbits

theorem Marked.finish (hfits : (Move.finish id).Fits totalCpus s)
    (h : (jobSteps memResv totalCpus).step s (.finish id) = some s') : Marked job cores s' := by
  obtain ⟨e, hfind, h⟩ := Option.bind_eq_some_iff.1 h
  obtain ⟨res, hdealloc, rfl⟩ := Option.map_eq_some_iff.1 h
  have hid : e.1 = id := by simpa using find?_some hfind
  have hmem := mem_of_find?_eq_some hfind
  obtain ⟨r1, ⟨cpus', mem', rfl⟩, hcase⟩ := stepDeallocLps_cases hdealloc
  obtain ⟨cpus, mem, used0, hres, hbits⟩ := hs.res
  -- what the other steps hold
  have hothers : ∀ k, (s.running.filter (·.1 != id)).any (fun e' => e'.2.exclusive && e'.2.holds k) =
      (s.held k && !e.2.holds k) := fun k => by
    rw [Bool.eq_iff_iff, Bool.and_eq_true, JobSteps.held, any_eq_true, any_eq_true]
    constructor
    · rintro ⟨e', he', hk⟩
      rw [mem_filter, bne_iff_ne] at he'
      rw [Bool.and_eq_true] at hk
      refine ⟨⟨e', he'.1, by rw [hk.1, hk.2]; rfl⟩, ?_⟩
      rw [Bool.not_eq_true', Bool.eq_false_iff]
      exact fun hboth => hfits e hmem hid e' he'.1 he'.2 hk.1 k ⟨hboth, hk.2⟩
    · rintro ⟨⟨e', he', hk⟩, hnot⟩
      refine ⟨e', mem_filter.2 ⟨he', ?_⟩, hk⟩
      rw [bne_iff_ne]
      intro hid'
      obtain rfl := inj_on_of_nodup_map hs.ids he' hmem (hid'.trans hid.symm)
      rw [Bool.and_eq_true] at hk
      rw [hk.2] at hnot
      cases hnot
  have hids' : ((s.running.filter (·.1 != id)).map Prod.fst).Nodup :=
    hs.ids.sublist (filter_sublist.map _)
  have hnodes' : ∀ e ∈ s.running.filter (·.1 != id),
      e.2.coreBitmapJob = none ∨ (e.2.stepLayout ≠ none ∧ HasNodes job) := fun e he =>
    hs.nodes e (mem_filter.1 he).1
  rcases hcase with ⟨rfl, hnone⟩ | ⟨mine, others, used, used', hmine, hnot, hused, hand, rfl⟩
  · have hmine : e.2.coreBitmapJob = none := by
      rcases hnone with hlayout | hmine | hhas
      · exact (hs.nodes e hmem).resolve_right fun hboth => hboth.1 hlayout
      · exact hmine
      · rw [hres] at hhas
        exact (hs.nodes e hmem).resolve_right fun hboth => hhas hboth.2
    have hno : ∀ k, e.2.holds k = false := fun k => by
      rw [StepRecord.holds, hmine]
      rfl
    refine ⟨⟨cpus', mem', used0, by rw [hres], hbits⟩, fun k => ?_, hids', hnodes'⟩
    rw [JobSteps.held, hothers, hno, ← hs.marks]
    simp [JobSteps.marked]
  · obtain ⟨hbits2, hclear⟩ := without_eq_some hnot hand
    have hbits' := hbits2.trans (hs.used_bits hused)
    refine ⟨⟨cpus', mem', used', by rw [hres], hbits'⟩, fun k => ?_, hids', hnodes'⟩
    rw [JobSteps.held, hothers, ← hs.marks, JobSteps.marked, JobSteps.marked, hused, StepRecord.holds, hmine]
    exact hclear k

variable (hjob : Addressed job shapes cores groups) (hhosts : job.nhosts.toNat = shapes.length)
include hjob hhosts

theorem Marked.start_picked {layout : StepLayout} {nodes : List (Nat × BitVec 16)}
    {core : Bitstr} (hnodes : stepNodes s.res step layout = some (some nodes)) (hcore : s.res.coreBitmap = some core)
    (hpick : pickNodes core (checkMemory s.res memResv step) nodes s.res used mine last =
      some (used', mine', last')) :
    core = cores ∧ NodesPicked cores shapes (checkMemory s.res memResv step) nodes used mine used' mine' := by
  obtain ⟨cpus, mem, used0, hres, hbits⟩ := hs.res
  have haddr : Addressed s.res shapes cores groups := by
    rw [hres]
    exact addressed_used hjob cpus mem _
  have hnhosts : s.res.nhosts.toNat = shapes.length := by rw [hres]; exact hhosts
  cases haddr.bitmap.symm.trans hcore
  obtain ⟨hall, hsorted⟩ := stepNodes_sorted hnodes
  exact ⟨rfl, nodesPicked_pickNodes haddr (fun e he => hnhosts ▸ (hall e he).1) hsorted hpick⟩

theorem Marked.start (hfits : (Move.start id step).Fits totalCpus s)
    (h : (jobSteps memResv totalCpus).step s (.start id step) = some s') : Marked job cores s' := by
  obtain ⟨hids, hnew, step', halloc, hrun⟩ := start_cases h
  obtain ⟨hex, hhas, r1, ⟨cpus', mem', rfl⟩, hcase⟩ := stepAllocLps_cases hnew halloc
  obtain ⟨cpus, mem, used0, hres, hbits⟩ := hs.res
  have hheld : ∀ k, s'.held k = ((step.exclusive && step'.holds k) || s.held k) := fun k => by
    rw [JobSteps.held, hrun, any_cons, hex]
    rfl
  have hids' : (s'.running.map Prod.fst).Nodup := by
    rw [hrun, map_cons, nodup_cons]
    refine ⟨fun hmem => ?_, hs.ids⟩
    obtain ⟨e, he, heq⟩ := mem_map.1 hmem
    exact hids e he heq
  have hnodes' : ∀ e ∈ s'.running, e.2.coreBitmapJob = none ∨ (e.2.stepLayout ≠ none ∧ HasNodes job) := by
    rw [hrun]
    rw [hres] at hhas
    exact forall_mem_cons.2 ⟨hhas, hs.nodes⟩
  have hkept : ∀ {res : JobResources}, res = { s.res with cpusUsed := cpus', memoryUsed := mem' } →
      s'.res = res → (∀ k, (step.exclusive && step'.holds k) = false) → Marked job cores s' := by
    intro res hres' hsame hnone
    refine ⟨⟨cpus', mem', used0, by rw [hsame, hres', hres], hbits⟩, fun k => ?_, hids', hnodes'⟩
    rw [hheld, hnone, Bool.false_or, ← hs.marks, JobSteps.marked, JobSteps.marked, hsame, hres']
  rcases hcase with ⟨hsame, hnone⟩ | ⟨hsame, hcopy⟩ | ⟨layout, nodes, core, used, mine, used', mine', hyes, hlayout,
    hnodes, hcore, hused, hmine, hpick, hr', hmine'⟩
  · exact hkept rfl hsame fun k => by simp [StepRecord.holds, hnone]
  · refine hkept rfl hsame fun k => ?_
    cases hyes : step.exclusive with
    | false => rfl
    | true => exact absurd (hcopy hyes) (hfits hyes).1
  · obtain ⟨rfl, hp⟩ := hs.start_picked hjob hhosts hnodes hcore hpick
    have hold := hs.held_eq hused
    have hmark : ∀ k, bitTest used' k = (bitTest mine' k || bitTest used k) := fun k => by
      rw [Bool.eq_iff_iff, Bool.or_eq_true]
      refine ⟨fun hk => (hp.used_new k hk).symm, fun hk => ?_⟩
      rcases hk with hk | hk
      · refine (hp.marked k hk).resolve_left fun hno => ?_
        rw [bitTest_bitAlloc hmine] at hno
        cases hno
      · exact hp.used_mono k hk
    have hbits' := hp.used_bits.trans (hs.used_bits hused)
    refine ⟨⟨cpus', mem', used', by rw [hr', hres], hbits'⟩, fun k => ?_, hids', hnodes'⟩
    rw [hheld, hold, hyes, Bool.true_and, StepRecord.holds, hmine', JobSteps.marked, hr']
    exact hmark k

/-- **Where there are enough free cores, a step gets free cores.** -/
theorem Marked.start_apart (hfits : (Move.start id step).Fits totalCpus s) (hex : step.exclusive = true)
    (h : (jobSteps memResv totalCpus).step s (.start id step) = some s') {layout : StepLayout}
    (hlayout : step.stepLayout = some layout) (hnodes : stepNodes s.res step layout = some (some nodes))
    {e : Nat × BitVec 16} (he : e ∈ nodes) (henough : cpusNeeded step e.2 ≤ (s.free cores (slice shapes e.1)).length)
    (hrun : s'.running = (id, step') :: s.running) (hk : k ∈ slice shapes e.1) (hholds : step'.holds k = true) :
    s.held k = false := by
  obtain ⟨-, hnew, step1, halloc, hrun1⟩ := start_cases h
  obtain rfl : step' = step1 := by
    rw [hrun1, cons.injEq, Prod.mk.injEq] at hrun
    exact hrun.1.2.symm
  obtain ⟨-, -, r1, -, hcase⟩ := stepAllocLps_cases hnew halloc
  rcases hcase with ⟨-, hnone⟩ | ⟨-, hcopy⟩ | ⟨layout', nodes', core, used, mine, used', mine', -, hlayout',
    hnodes', hcore, hused, hmine, hpick, -, hmine'⟩
  · simp [StepRecord.holds, hnone] at hholds
  · exact absurd (hcopy hex) (hfits hex).1
  · cases hlayout.symm.trans hlayout'
    cases Option.some.inj (hnodes.symm.trans hnodes')
    obtain ⟨rfl, hp⟩ := hs.start_picked hjob hhosts hnodes hcore hpick
    have hold := hs.held_eq hused
    have hfree : s.free core (slice shapes e.1) = idle core used (slice shapes e.1) :=
      filter_congr fun k _ => by rw [hold]
    have htasks : 0 < e.2.toNat := (hfits hex).2 layout hlayout e.2 ((stepNodes_sorted hnodes).1 e he).2
    rw [hfree] at henough
    rw [StepRecord.holds, hmine'] at hholds
    rw [hold]
    refine (hp.apart e he ?_ ?_ k hk hholds).resolve_left fun hno => ?_
    · rw [checkMemory_same.2.2.2.2]
      exact htasks.trans_le (cpusNeeded_ge step e.2)
    · rw [checkMemory_same.2.2.2.2]
      exact henough
    · rw [bitTest_bitAlloc hmine] at hno
      cases hno

omit hs in
theorem marked_of_reach (hused : job.coreBitmapUsed = some used) (hbits : used.bits = cores.bits)
    (hclear : ∀ k, bitTest used k = false)
    (h : (jobSteps memResv totalCpus).Reach (Move.Fits totalCpus) ⟨job, last, []⟩ s) : Marked job cores s := by
  refine h.invariant ?_ fun s move s' hs hfits hstep => ?_
  · refine ⟨⟨job.cpusUsed, job.memoryUsed, used, by rw [← hused], hbits⟩, fun k => ?_, nodup_nil, by simp⟩
    simp [JobSteps.marked, JobSteps.held, hused, hclear]
  · cases move with
    | start id step => exact hs.start hjob hhosts hfits hstep
    | finish id => exact hs.finish hfits hstep

end

/-- **Exclusive steps do not share cores** in a run whose moves all fit: the core of an exclusive step is marked,
    and on a node with as many free cores as it needs an exclusive step is given free ones. -/
theorem exclusive_cores_apart (hjob : Addressed job shapes cores groups) (hhosts : job.nhosts.toNat = shapes.length)
    (hused : job.coreBitmapUsed = some used) (hbits : used.bits = cores.bits) (hclear : ∀ k, bitTest used k = false)
    (h : (jobSteps memResv totalCpus).Reach (Move.Fits totalCpus) ⟨job, last, []⟩ s) :
    (∀ k, s.held k = true → s.marked k = true) ∧
    ∀ id step step' s' layout nodes, (Move.start id step).Fits totalCpus s → step.exclusive = true →
      (jobSteps memResv totalCpus).step s (.start id step) = some s' → s'.running = (id, step') :: s.running →
      step.stepLayout = some layout → stepNodes s.res step layout = some (some nodes) → ∀ e ∈ nodes,
      cpusNeeded step e.2 ≤ (s.free cores (slice shapes e.1)).length →
      ∀ k ∈ slice shapes e.1, step'.holds k = true → s.held k = false := by
  have hs := marked_of_reach hjob hhosts hused hbits hclear h
  refine ⟨fun k hk => (hs.marks k).trans hk, ?_⟩
  intro id step step' s' layout nodes hfits hex hstep hrun hlayout hnodes e he henough k hk hholds
  exact hs.start_apart hjob hhosts hfits hex hstep hlayout hnodes he henough hrun hk hholds

/-- A job with one node of one socket with two cores. -/
def twoCores : JobResources :=
  { createJobResources with
    coreBitmap := some (oneWord 2 0b11), coreBitmapUsed := some (oneWord 2 0),
    coresPerSocket := some [2], cpusUsed := some [0], nhosts := 1, nodeBitmap := some (oneWord 1 1),
    sockCoreRepCount := some [1], socketsPerNode := some [1] }

/-- A step with one task, without memory of its own. -/
def oneTask (exclusive : Bool) : StepRecord := ⟨exclusive, 1, 1, 0, oneWord 1 1, some ⟨1, [1]⟩, none⟩

theorem addressed_twoCores : Addressed twoCores [⟨1, 2⟩] ⟨2, [0b11], rfl, by decide⟩ [⟨⟨1, 2⟩, 1⟩] := by
  refine ⟨⟨0, rfl⟩, ?_, rfl, ?_, rfl, rfl⟩ <;> decide

theorem fits_oneTask : (Move.start id (oneTask true)).Fits 2 s := by
  intro _
  refine ⟨Nat.succ_ne_self 1 |>.symm, fun layout hlayout tasks htasks => ?_⟩
  cases hlayout
  obtain rfl : tasks = 1 := mem_singleton.1 htasks
  exact Nat.one_pos

theorem exclusive_cores_apart_two : ∃ s s' step',
    (jobSteps false 2).step ⟨twoCores, 0, []⟩ (.start 0 (oneTask true)) = some s ∧ s.marked 0 = true ∧
    (jobSteps false 2).step s (.start 1 (oneTask true)) = some s' ∧ s'.running = (1, step') :: s.running ∧
    step'.holds 1 = true ∧ s.held 1 = false := by
  obtain ⟨s, hs⟩ : ∃ s, (jobSteps false 2).step ⟨twoCores, 0, []⟩ (.start 0 (oneTask true)) = some s := ⟨_, rfl⟩
  have hclear : ∀ k, bitTest ⟨2, [0], rfl, by decide⟩ k = false :=
    bitTest_bitAlloc (n := 2) rfl
  obtain ⟨hmarked, hapart⟩ := exclusive_cores_apart addressed_twoCores rfl rfl rfl hclear
    (.step .start fits_oneTask hs)
  obtain rfl := Option.some.inj hs
  refine ⟨_, _, _, hs, hmarked 0 (by decide), rfl, rfl, by decide, ?_⟩
  exact hapart 1 (oneTask true) _ _ _ _ fits_oneTask rfl rfl rfl rfl rfl (0, 1) (by decide) (by decide) 1
    (by decide) (by decide)

/-- **The slip.**  Step 0 is exclusive and has core 0.  Step 1 is not exclusive; it starts and ends, and with it
    goes the mark of core 0.  Step 2 is exclusive and needs one core; core 1 is free, and it is given core 0. -/
theorem marks_lost : ∃ s s' step', (jobSteps false 2).run ⟨twoCores, 0, []⟩
      [.start 0 (oneTask true), .start 1 (oneTask false), .finish 1] = some s ∧
    s.held 0 = true ∧ s.marked 0 = false ∧
    cpusNeeded (oneTask true) 1 ≤ (s.free ⟨2, [0b11], rfl, by decide⟩ (slice [⟨1, 2⟩] 0)).length ∧
    (jobSteps false 2).step s (.start 2 (oneTask true)) = some s' ∧ s'.running = (2, step') :: s.running ∧
    0 ∈ slice [⟨1, 2⟩] 0 ∧ step'.holds 0 = true := by
  refine ⟨_, _, _, rfl, ?_, ?_, ?_, rfl, rfl, ?_, ?_⟩ <;> decide

end Slurmpp.StepCores
