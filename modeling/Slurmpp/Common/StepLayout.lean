/-
  The layout of a step's tasks on its nodes (`src/common/slurm_step_layout.c`).

  1. **Rounds** — all three distributions first go over the nodes in rounds and give each node one task while it has
     a cpu left, and without regard to cpus from the first round on after which no node had one.  What a node does
     with a task is a parameter (`place`); what one placement keeps, the loop keeps (`rounds_eq`).
  2. **Block** then numbers the tasks node by node; **plane** deals them out in further rounds.  Both use the counts
     of the first loop, so the counts must add up.
  3. `Dealt` (each number in one hand, every hand in order) is what all three establish.
-/
import Slurmpp.Lib.Deal

namespace Slurmpp.StepLayout

open List

/-- What the layout knows of a node: `cpus[i]`, `tasks[i]` and the numbers stored in `tids[i]`. -/
structure Node where
  cpus : Nat
  tasks : Nat
  tids : List Nat
deriving DecidableEq

variable {place : Nat → Node → Node} {nodes nodes' : List Node} {n : Node} {j taskid taskCnt k : Nat}
  {overSubscribe : Bool}

/-! ## Rounds -/

/-- One round over the nodes: the nodes, the next task and `space_remaining`. -/
def round (place : Nat → Node → Node) (j : Nat) (overSubscribe : Bool) (taskCnt : Nat) :
    List Node → Nat → List Node × Nat × Bool
  | [], taskid => ([], taskid, false)
  | n :: ns, taskid =>
    if taskid < taskCnt then
      if j < n.cpus ∨ overSubscribe = true then
        let rest := round place j overSubscribe taskCnt ns (taskid + 1)
        (place taskid n :: rest.1, rest.2.1, decide (j + 1 < n.cpus) || rest.2.2)
      else
        let rest := round place j overSubscribe taskCnt ns taskid
        (n :: rest.1, rest.2)
    else (n :: ns, taskid, false)

/-- The loop over the rounds, at round `j`; `none` when `fuel` rounds are not enough. -/
def rounds (place : Nat → Node → Node) (taskCnt : Nat) :
    Nat → Nat → Bool → List Node → Nat → Option (List Node)
  | 0, _, _, _, _ => none
  | fuel + 1, j, overSubscribe, nodes, taskid =>
    if taskid < taskCnt then
      let r := round place j overSubscribe taskCnt nodes taskid
      rounds place taskCnt fuel (j + 1) (overSubscribe || !r.2.2) r.1 r.2.1
    else some nodes

/-- `tasks[i]++`, a 16-bit counter. -/
def countTask (_ : Nat) (n : Node) : Node := { n with tasks := (n.tasks + 1) % 2 ^ 16 }

/-- `tids[i]` is made `tasks[i] + 1` long, its last element is the task, and `tasks[i]++`. -/
def storeTask (taskid : Nat) (n : Node) : Node :=
  { n with tids := n.tids.take n.tasks ++ [taskid], tasks := (n.tasks + 1) % 2 ^ 16 }

def roundFuel (taskCnt : Nat) : Nat := 2 * taskCnt + 2

/-- **What one placement keeps, a round keeps**; `pre` are the nodes already seen. -/
theorem round_keeps {I : List Node → Nat → Prop}
    (hplace : ∀ pre n post taskid, taskid < taskCnt → I (pre ++ n :: post) taskid →
      I (pre ++ place taskid n :: post) (taskid + 1)) (pre : List Node) (h : I (pre ++ nodes) taskid) :
    I (pre ++ (round place j overSubscribe taskCnt nodes taskid).1)
      (round place j overSubscribe taskCnt nodes taskid).2.1 := by
  induction nodes generalizing pre taskid with
  | nil => exact h
  | cons n ns ih =>
    rw [round]
    split_ifs with hmore hfree
    · have hnext := hplace pre n ns taskid hmore h
      rw [append_cons] at hnext
      have hrest := ih (pre ++ [place taskid n]) hnext
      rw [append_assoc, singleton_append] at hrest
      exact hrest
    · rw [append_cons] at h
      have hrest := ih (pre ++ [n]) h
      rw [append_assoc, singleton_append] at hrest
      exact hrest
    · exact h

theorem round_moves (hle : taskid ≤ taskCnt) :
    taskid ≤ (round place j overSubscribe taskCnt nodes taskid).2.1 ∧
    (round place j overSubscribe taskCnt nodes taskid).2.1 ≤ taskCnt ∧
    (taskid < taskCnt → nodes ≠ [] → overSubscribe = true →
      taskid < (round place j overSubscribe taskCnt nodes taskid).2.1) ∧
    ((round place j overSubscribe taskCnt nodes taskid).2.1 = taskid →
      (round place j overSubscribe taskCnt nodes taskid).2.2 = false) := by
  induction nodes generalizing taskid with
  | nil =>
    refine ⟨le_rfl, hle, ?_, ?_⟩
    · intro _ hne
      exact absurd rfl hne
    · intro _
      rfl
  | cons n ns ih =>
    rw [round]
    split_ifs with hmore hfree
    · obtain ⟨h1, h2, -, -⟩ := @ih (taskid + 1) hmore
      refine ⟨(Nat.le_succ _).trans h1, h2, fun _ _ _ => h1, ?_⟩
      intro hsame
      have hsame : (round place j overSubscribe taskCnt ns (taskid + 1)).2.1 = taskid := hsame
      omega
    · obtain ⟨h1, h2, -, h4⟩ := ih hle
      refine ⟨h1, h2, fun _ _ hover => absurd (.inr hover) hfree, h4⟩
    · exact ⟨le_rfl, hle, fun h => absurd h hmore, fun _ => rfl⟩

theorem round_ne_nil (h : nodes ≠ []) : (round place j overSubscribe taskCnt nodes taskid).1 ≠ [] := by
  cases nodes with
  | nil => exact absurd rfl h
  | cons n ns =>
    rw [round]
    split_ifs <;> simp

/-- **The loop ends**, with all tasks placed, and keeps what a placement keeps. -/
theorem rounds_eq {I : List Node → Nat → Prop}
    (hplace : ∀ pre n post taskid, taskid < taskCnt → I (pre ++ n :: post) taskid →
      I (pre ++ place taskid n :: post) (taskid + 1)) {fuel : Nat} (hne : nodes ≠ [])
    (hle : taskid ≤ taskCnt) (hfuel : 2 * (taskCnt - taskid) + (if overSubscribe then 0 else 1) < fuel)
    (h : I nodes taskid) : ∃ nodes', rounds place taskCnt fuel j overSubscribe nodes taskid = some nodes' ∧
      I nodes' taskCnt := by
  induction fuel generalizing j overSubscribe nodes taskid with
  | zero => omega
  | succ fuel ih =>
    rw [rounds]
    by_cases hmore : taskid < taskCnt
    · rw [if_pos hmore]
      obtain ⟨h1, h2, h3, h4⟩ := @round_moves place nodes j taskid taskCnt overSubscribe hle
      have hkeep := @round_keeps place nodes j taskid taskCnt overSubscribe I hplace [] h
      refine ih (round_ne_nil hne) h2 ?_ hkeep
      cases overSubscribe with
      | true =>
        have := h3 hmore hne rfl
        simp only [if_true, Bool.true_or] at hfuel ⊢
        omega
      | false =>
        -- a round that places nothing turns the cpus off
        by_cases hsame : (round place j false taskCnt nodes taskid).2.1 = taskid
        · rw [h4 hsame, hsame]
          simp only [Bool.false_eq_true, if_false, Bool.not_false, Bool.or_true, if_true] at hfuel ⊢
          omega
        · simp only [Bool.false_eq_true, if_false] at hfuel
          split_ifs <;> omega
    · obtain rfl : taskid = taskCnt := by omega
      rw [if_neg hmore]
      exact ⟨nodes, rfl, h⟩

/-! ## Cyclic -/

def taskLayoutCyclic (taskCnt : Nat) (nodes : List Node) : Option (List Node) :=
  rounds storeTask taskCnt (roundFuel taskCnt) 0 false nodes 0

/-- `k` nodes hold the tasks below `taskid`, and the counts are those of the numbers stored. -/
structure Stored (k : Nat) (nodes : List Node) (taskid : Nat) : Prop where
  length : nodes.length = k
  dealt : Dealt (nodes.map Node.tids) taskid
  tasks : ∀ n ∈ nodes, n.tasks = n.tids.length

def emptyNodes (cpus : List Nat) : List Node := cpus.map fun c => ⟨c, 0, []⟩

theorem emptyNodes_tids (cpus : List Nat) : (emptyNodes cpus).map Node.tids = replicate cpus.length [] := by
  rw [emptyNodes, map_map]
  exact map_const

theorem stored_empty (cpus : List Nat) : Stored cpus.length (emptyNodes cpus) 0 := by
  refine ⟨length_map _, ?_, ?_⟩
  · rw [emptyNodes_tids]
    exact dealt_nil _
  · intro n hn
    obtain ⟨c, -, rfl⟩ := mem_map.1 hn
    rfl

variable {pre post : List Node}

theorem forall_mem_replace {P : Node → Prop} {n' : Node} (h : ∀ m ∈ pre ++ n :: post, P m) (hn : P n') :
    ∀ m ∈ pre ++ n' :: post, P m := by
  rw [forall_mem_append, forall_mem_cons] at h ⊢
  exact ⟨h.1, hn, h.2.2⟩

theorem Stored.storeTask (hmax : taskCnt < 2 ^ 16) (hmore : taskid < taskCnt)
    (h : Stored k (pre ++ n :: post) taskid) : Stored k (pre ++ storeTask taskid n :: post) (taskid + 1) := by
  have htasks : n.tasks = n.tids.length := h.tasks n (by simp)
  have hle : n.tids.length ≤ taskid := h.dealt.length_le (mem_map_of_mem (by simp))
  have htids : (StepLayout.storeTask taskid n).tids = n.tids ++ [taskid] := by
    show n.tids.take n.tasks ++ [taskid] = _
    rw [htasks, take_length]
  refine ⟨?_, ?_, ?_⟩
  · rw [← h.length, length_append, length_append, length_cons, length_cons]
  · rw [map_append, map_cons, htids]
    apply Dealt.snoc
    rw [← map_cons, ← map_append]
    exact h.dealt
  · refine forall_mem_replace h.tasks ?_
    rw [htids, length_append, length_singleton]
    show (n.tasks + 1) % 2 ^ 16 = _
    omega

variable {cpus : List Nat}

theorem taskLayoutCyclic_eq (hne : cpus ≠ []) (hmax : taskCnt < 2 ^ 16) :
    ∃ nodes, taskLayoutCyclic taskCnt (emptyNodes cpus) = some nodes ∧ Stored cpus.length nodes taskCnt := by
  refine rounds_eq ?_ ?_ (Nat.zero_le _) ?_ (stored_empty cpus)
  · intro pre n post taskid hmore h
    exact h.storeTask hmax hmore
  · intro hnil
    exact hne (map_eq_nil_iff.1 hnil)
  · rw [roundFuel]
    simp

/-! ## The counts of block and plane -/

structure Counted (k : Nat) (nodes : List Node) (taskid : Nat) : Prop where
  length : nodes.length = k
  sum : (nodes.map Node.tasks).sum = taskid
  tids : ∀ n ∈ nodes, n.tids = []

theorem counted_empty : Counted cpus.length (emptyNodes cpus) 0 := by
  refine ⟨length_map _, ?_, ?_⟩
  · rw [emptyNodes, map_map]
    exact sum_eq_zero fun x hx => by
      obtain ⟨c, -, rfl⟩ := mem_map.1 hx
      rfl
  · intro n hn
    obtain ⟨c, -, rfl⟩ := mem_map.1 hn
    rfl

theorem Counted.countTask (hmax : taskCnt < 2 ^ 16) (hmore : taskid < taskCnt)
    (h : Counted k (pre ++ n :: post) taskid) : Counted k (pre ++ countTask taskid n :: post) (taskid + 1) := by
  have hsum := h.sum
  rw [map_append, map_cons, sum_append, sum_cons] at hsum
  refine ⟨?_, ?_, ?_⟩
  · rw [← h.length, length_append, length_append, length_cons, length_cons]
  · rw [map_append, map_cons, sum_append, sum_cons]
    show _ + ((n.tasks + 1) % 2 ^ 16 + _) = _
    omega
  · exact forall_mem_replace h.tids (h.tids n (by simp))

/-- "figure out how many tasks go to each node". -/
def countTasks (taskCnt : Nat) (nodes : List Node) : Option (List Node) :=
  rounds countTask taskCnt (roundFuel taskCnt) 0 false nodes 0

theorem countTasks_eq (hne : cpus ≠ []) (hmax : taskCnt < 2 ^ 16) :
    ∃ nodes, countTasks taskCnt (emptyNodes cpus) = some nodes ∧ Counted cpus.length nodes taskCnt := by
  refine rounds_eq ?_ ?_ (Nat.zero_le _) ?_ counted_empty
  · intro pre n post taskid hmore h
    exact h.countTask hmax hmore
  · intro hnil
    exact hne (map_eq_nil_iff.1 hnil)
  · rw [roundFuel]
    simp

/-! ## Block -/

/-- "now distribute the tasks": each node the next `tasks[i]` numbers. -/
def numberTasks : List Node → Nat → List Node
  | [], _ => []
  | n :: ns, taskid => { n with tids := range' taskid n.tasks } :: numberTasks ns (taskid + n.tasks)

def taskLayoutBlock (taskCnt : Nat) (nodes : List Node) : Option (List Node) :=
  (countTasks taskCnt nodes).map (numberTasks · 0)

theorem numberTasks_tids : (numberTasks nodes taskid).map Node.tids = blocks taskid (nodes.map Node.tasks) := by
  induction nodes generalizing taskid with
  | nil => rfl
  | cons n ns ih => rw [numberTasks, map_cons, ih, map_cons, blocks]

theorem length_numberTasks : (numberTasks nodes taskid).length = nodes.length := by
  induction nodes generalizing taskid with
  | nil => rfl
  | cons n ns ih => rw [numberTasks, length_cons, ih, length_cons]

theorem numberTasks_tasks (h : n ∈ numberTasks nodes taskid) : n.tasks = n.tids.length := by
  induction nodes generalizing taskid with
  | nil => exact absurd h not_mem_nil
  | cons m ms ih =>
    rcases mem_cons.1 h with rfl | h
    · exact length_range'.symm
    · exact ih h

theorem Counted.number (h : Counted k nodes taskCnt) : Stored k (numberTasks nodes 0) taskCnt := by
  refine ⟨length_numberTasks.trans h.length, ?_, fun _ => numberTasks_tasks⟩
  rw [numberTasks_tids, ← h.sum]
  exact dealt_blocks _

theorem taskLayoutBlock_eq (hne : cpus ≠ []) (hmax : taskCnt < 2 ^ 16) :
    ∃ nodes, taskLayoutBlock taskCnt (emptyNodes cpus) = some nodes ∧ Stored cpus.length nodes taskCnt := by
  obtain ⟨nodes, hcount, h⟩ := countTasks_eq hne hmax
  exact ⟨numberTasks nodes 0, by rw [taskLayoutBlock, hcount, Option.map_some], h.number⟩

/-! ## Plane -/

/-- `tids[i][cur_task[i]] = taskid`: `cur_task[i]` is the number of those stored. -/
def planeTask (taskid : Nat) (n : Node) : Node := { n with tids := n.tids ++ [taskid] }

/-- Up to `size` tasks to one node. -/
def planeBlock (taskCnt : Nat) : Nat → Node → Nat → Node × Nat
  | 0, n, taskid => (n, taskid)
  | size + 1, n, taskid =>
    if n.tids.length < n.tasks ∧ taskid < taskCnt then
      planeBlock taskCnt size (planeTask taskid n) (taskid + 1)
    else (n, taskid)

def planeRound (planeSize taskCnt : Nat) : List Node → Nat → List Node × Nat
  | [], taskid => ([], taskid)
  | n :: ns, taskid =>
    if taskid < taskCnt then
      let b := planeBlock taskCnt planeSize n taskid
      let rest := planeRound planeSize taskCnt ns b.2
      (b.1 :: rest.1, rest.2)
    else (n :: ns, taskid)

def planeRounds (planeSize taskCnt : Nat) : Nat → List Node → Nat → Option (List Node × Nat)
  | 0, _, _ => none
  | fuel + 1, nodes, taskid =>
    if taskid < taskCnt then
      let r := planeRound planeSize taskCnt nodes taskid
      planeRounds planeSize taskCnt fuel r.1 r.2
    else some (nodes, taskid)

/-- `SLURM_ERROR`, or `SLURM_SUCCESS` and the layout. -/
inductive Rc where
  | error
  | success (nodes : List Node)
deriving DecidableEq

def taskLayoutPlane (planeSize taskCnt : Nat) (nodes : List Node) : Option Rc :=
  if planeSize = 0 then some .error
  else
    (countTasks taskCnt nodes).bind fun nodes =>
      (planeRounds planeSize taskCnt (taskCnt + 1) nodes 0).map fun r =>
        if r.2 = taskCnt then .success r.1 else .error

/-- A node without its numbers. -/
def Node.count (n : Node) : Node := { n with tids := [] }

/-- The tasks below `taskid` are stored; the counts say where the others will go. -/
structure Planned (k taskCnt : Nat) (nodes : List Node) (taskid : Nat) : Prop where
  length : nodes.length = k
  dealt : Dealt (nodes.map Node.tids) taskid
  room : ∀ n ∈ nodes, n.tids.length ≤ n.tasks
  sum : (nodes.map Node.tasks).sum = taskCnt

theorem Counted.planned (h : Counted k nodes taskCnt) : Planned k taskCnt nodes 0 := by
  refine ⟨h.length, ?_, ?_, h.sum⟩
  · have hnil : nodes.map Node.tids = replicate nodes.length [] := by
      rw [eq_replicate_iff]
      refine ⟨length_map _, ?_⟩
      intro t ht
      obtain ⟨n, hn, rfl⟩ := mem_map.1 ht
      exact h.tids n hn
    rw [hnil]
    exact dealt_nil _
  · intro n hn
    rw [h.tids n hn]
    exact Nat.zero_le _

theorem Planned.planeTask (hroom : n.tids.length < n.tasks) (h : Planned k taskCnt (pre ++ n :: post) taskid) :
    Planned k taskCnt (pre ++ planeTask taskid n :: post) (taskid + 1) := by
  refine ⟨?_, ?_, ?_, ?_⟩
  · rw [← h.length, length_append, length_append, length_cons, length_cons]
  · rw [map_append, map_cons]
    apply Dealt.snoc
    rw [← map_cons, ← map_append]
    exact h.dealt
  · refine forall_mem_replace h.room ?_
    show (n.tids ++ [taskid]).length ≤ n.tasks
    rw [length_append, length_singleton]
    exact hroom
  · rw [← h.sum, map_append, map_append, map_cons, map_cons]
    rfl

theorem planeBlock_keeps {size : Nat} (h : Planned k taskCnt (pre ++ n :: post) taskid) :
    Planned k taskCnt (pre ++ (planeBlock taskCnt size n taskid).1 :: post) (planeBlock taskCnt size n taskid).2 ∧
      (planeBlock taskCnt size n taskid).1.count = n.count := by
  induction size generalizing n taskid with
  | zero => exact ⟨h, rfl⟩
  | succ size ih =>
    rw [planeBlock]
    split_ifs with hroom
    · exact ih (h.planeTask hroom.1)
    · exact ⟨h, rfl⟩

theorem planeBlock_moves {size : Nat} (hle : taskid ≤ taskCnt) :
    taskid ≤ (planeBlock taskCnt size n taskid).2 ∧ (planeBlock taskCnt size n taskid).2 ≤ taskCnt ∧
    (0 < size → n.tids.length < n.tasks → taskid < taskCnt → taskid < (planeBlock taskCnt size n taskid).2) := by
  induction size generalizing n taskid with
  | zero => exact ⟨le_rfl, hle, fun h => absurd h (Nat.lt_irrefl 0)⟩
  | succ size ih =>
    rw [planeBlock]
    split_ifs with hroom
    · obtain ⟨h1, h2, -⟩ := @ih (planeTask taskid n) (taskid + 1) hroom.2
      exact ⟨(Nat.le_succ _).trans h1, h2, fun _ _ _ => h1⟩
    · exact ⟨le_rfl, hle, fun _ h1 h2 => absurd ⟨h1, h2⟩ hroom⟩

variable {planeSize : Nat}

theorem planeRound_keeps (pre : List Node) (h : Planned k taskCnt (pre ++ nodes) taskid) :
    Planned k taskCnt (pre ++ (planeRound planeSize taskCnt nodes taskid).1)
      (planeRound planeSize taskCnt nodes taskid).2 ∧
      (planeRound planeSize taskCnt nodes taskid).1.map Node.count = nodes.map Node.count := by
  induction nodes generalizing pre taskid with
  | nil => exact ⟨h, rfl⟩
  | cons n ns ih =>
    rw [planeRound]
    split_ifs with hmore
    · obtain ⟨hblock, hcount⟩ := @planeBlock_keeps n taskid taskCnt k pre ns planeSize h
      rw [append_cons] at hblock
      obtain ⟨hrest, hcounts⟩ := ih _ hblock
      rw [append_assoc, singleton_append] at hrest
      exact ⟨hrest, by rw [map_cons, hcount, hcounts, map_cons]⟩
    · exact ⟨h, rfl⟩

theorem planeRound_moves (hle : taskid ≤ taskCnt) :
    taskid ≤ (planeRound planeSize taskCnt nodes taskid).2 ∧
    (planeRound planeSize taskCnt nodes taskid).2 ≤ taskCnt ∧
    (0 < planeSize → (∃ n ∈ nodes, n.tids.length < n.tasks) → taskid < taskCnt →
      taskid < (planeRound planeSize taskCnt nodes taskid).2) := by
  induction nodes generalizing taskid with
  | nil =>
    refine ⟨le_rfl, hle, ?_⟩
    rintro - ⟨n, hn, -⟩
    exact absurd hn not_mem_nil
  | cons n ns ih =>
    rw [planeRound]
    split_ifs with hmore
    · obtain ⟨h1, h2, h3⟩ := @planeBlock_moves n taskid taskCnt planeSize hle
      obtain ⟨g1, g2, g3⟩ := ih h2
      refine ⟨h1.trans g1, g2, ?_⟩
      rintro hsize ⟨m, hm, hroom⟩ -
      rcases mem_cons.1 hm with rfl | hm
      · exact (h3 hsize hroom hmore).trans_le g1
      · -- the node with room is a later one: it is reached unless the tasks are used up before
        by_cases hused : (planeBlock taskCnt planeSize n taskid).2 < taskCnt
        · exact h1.trans_lt (g3 hsize ⟨m, hm, hroom⟩ hused)
        · exact (hmore.trans_le (not_lt.1 hused)).trans_le g1
    · exact ⟨le_rfl, hle, fun _ _ h => absurd h hmore⟩

theorem Planned.exists_room (h : Planned k taskCnt nodes taskid) (hmore : taskid < taskCnt) :
    ∃ n ∈ nodes, n.tids.length < n.tasks := by
  have hsum := h.dealt.sum_length
  rw [map_map] at hsum
  exact List.exists_lt_of_sum_lt (f := List.length ∘ Node.tids) (g := Node.tasks)
    (by rw [hsum, h.sum]; exact hmore)

theorem planeRounds_eq {fuel : Nat} (hsize : 0 < planeSize) (hle : taskid ≤ taskCnt)
    (hfuel : taskCnt - taskid < fuel) (h : Planned k taskCnt nodes taskid) :
    ∃ nodes', planeRounds planeSize taskCnt fuel nodes taskid = some (nodes', taskCnt) ∧
      Planned k taskCnt nodes' taskCnt ∧ nodes'.map Node.count = nodes.map Node.count := by
  induction fuel generalizing nodes taskid with
  | zero => exact absurd hfuel (Nat.not_lt_zero _)
  | succ fuel ih =>
    rw [planeRounds]
    by_cases hmore : taskid < taskCnt
    · rw [if_pos hmore]
      obtain ⟨-, h2, h3⟩ := @planeRound_moves nodes taskid taskCnt planeSize hle
      have hmoved := h3 hsize (h.exists_room hmore) hmore
      obtain ⟨hkept, hcounts⟩ := @planeRound_keeps nodes taskid taskCnt k planeSize [] h
      obtain ⟨nodes', heq, hplanned, hsame⟩ := ih h2 (by omega) hkept
      exact ⟨nodes', heq, hplanned, hsame.trans hcounts⟩
    · obtain rfl : taskid = taskCnt := by omega
      rw [if_neg hmore]
      exact ⟨nodes, rfl, h, rfl⟩

theorem Planned.stored (h : Planned k taskCnt nodes taskCnt) : Stored k nodes taskCnt := by
  refine ⟨h.length, h.dealt, ?_⟩
  intro n hn
  by_contra hne
  have hlt : n.tids.length < n.tasks := (h.room n hn).lt_of_ne (Ne.symm hne)
  have hsum := h.dealt.sum_length
  rw [map_map] at hsum
  have := List.sum_lt_sum (List.length ∘ Node.tids) Node.tasks h.room ⟨n, hn, hlt⟩
  rw [hsum, h.sum] at this
  exact Nat.lt_irrefl _ this

theorem taskLayoutPlane_eq (hne : cpus ≠ []) (hmax : taskCnt < 2 ^ 16) (hsize : 0 < planeSize) :
    ∃ nodes, taskLayoutPlane planeSize taskCnt (emptyNodes cpus) = some (.success nodes) ∧
      Stored cpus.length nodes taskCnt := by
  obtain ⟨nodes, hcount, h⟩ := countTasks_eq hne hmax
  obtain ⟨nodes', hrounds, h', -⟩ := planeRounds_eq hsize (Nat.zero_le _) (Nat.lt_succ_self taskCnt) h.planned
  refine ⟨nodes', ?_, h'.stored⟩
  rw [taskLayoutPlane, if_neg hsize.ne', hcount, Option.bind_some, hrounds, Option.map_some, if_pos rfl]

/-! ## The layout -/

/-- The distributions of the source; that from a host file is not modelled. -/
inductive TaskDist where
  | cyclic
  | block
  | plane
  | cyclicCyclic
  | cyclicBlock
  | blockCyclic
  | blockBlock
  | unknown
deriving DecidableEq

/-- `cpus_per_task` as used: 0 and `NO_VAL` stand for 1. -/
def cpusPerTaskUsed (cpusPerTask : Nat) : Nat :=
  if cpusPerTask < 1 ∨ cpusPerTask = 0xfffe then 1 else cpusPerTask

/-- `cpus[i]` for `i` more nodes: the record at hand is the head of both arrays and has been used
    `cpuCnt` times; `none` when a record behind the last one is read. -/
def nodeCpus (cpusPerTask : Nat) : Nat → List Nat → List Nat → Nat → Option (List Nat)
  | 0, _, _, _ => some []
  | i + 1, c :: cs, r :: rs, cpuCnt =>
    let cpus := if c / cpusPerTask = 0 then 1 else c / cpusPerTask
    if r ≤ cpuCnt + 1 then (nodeCpus cpusPerTask i cs rs 0).map (cpus :: ·)
    else (nodeCpus cpusPerTask i (c :: cs) (r :: rs) (cpuCnt + 1)).map (cpus :: ·)
  | _ + 1, _, _, _ => none

/-- `_init_task_layout` for `nodeCnt` nodes and a node list of `hosts` names; `none` when it reads
    behind the cpu records or does not end. -/
def initTaskLayout (nodeCnt hosts taskCnt : Nat) (cpusPerNode cpuCountReps : List Nat)
    (cpusPerTask : Nat) (taskDist : TaskDist) (planeSize : Nat) : Option Rc :=
  if nodeCnt = 0 then some .error
  else if min nodeCnt hosts < 1 then some .error
  else
    (nodeCpus (cpusPerTaskUsed cpusPerTask) (min nodeCnt hosts) cpusPerNode cpuCountReps 0).bind
      fun cpus =>
        match taskDist with
        | .cyclic | .cyclicCyclic | .cyclicBlock =>
          (taskLayoutCyclic taskCnt (emptyNodes cpus)).map .success
        | .plane => taskLayoutPlane planeSize taskCnt (emptyNodes cpus)
        | _ => (taskLayoutBlock taskCnt (emptyNodes cpus)).map .success

theorem nodeCpus_length {cpusPerTask i : Nat} {cs rs : List Nat} {cpuCnt : Nat}
    (h : nodeCpus cpusPerTask i cs rs cpuCnt = some cpus) : cpus.length = i := by
  induction i generalizing cs rs cpuCnt cpus with
  | zero =>
    cases h
    rfl
  | succ i ih =>
    match cs, rs, h with
    | [], _, h | _ :: _, [], h => cases h
    | c :: cs, r :: rs, h =>
      rw [nodeCpus] at h
      split_ifs at h <;> obtain ⟨rest, hrest, rfl⟩ := Option.map_eq_some_iff.1 h <;>
        rw [length_cons, ih hrest]

/-- **Every task is placed exactly once.**  For every distribution, on any number of nodes with any cpu
    records that cover them, the layout is made: the numbers below the task count stand in the `tids`
    of the nodes, each once, in increasing order on every node, and `tasks` is their number. -/
theorem tasks_placed_once {nodeCnt hosts taskCnt cpusPerTask planeSize : Nat}
    {cpusPerNode cpuCountReps cpus : List Nat} {taskDist : TaskDist} (hnodes : 1 ≤ nodeCnt)
    (hhosts : 1 ≤ hosts) (hmax : taskCnt ≤ 65535) (hplane : taskDist = .plane → 1 ≤ planeSize)
    (hcpus : nodeCpus (cpusPerTaskUsed cpusPerTask) (min nodeCnt hosts) cpusPerNode cpuCountReps 0 =
      some cpus) :
    ∃ nodes, initTaskLayout nodeCnt hosts taskCnt cpusPerNode cpuCountReps cpusPerTask taskDist
        planeSize = some (.success nodes) ∧
      nodes.length = min nodeCnt hosts ∧
      (nodes.map Node.tids).flatten.Perm (range taskCnt) ∧
      (∀ n ∈ nodes, n.tasks = n.tids.length) ∧ ∀ n ∈ nodes, n.tids.Pairwise (· < ·) := by
  have hlen : cpus.length = min nodeCnt hosts := nodeCpus_length hcpus
  have hne : cpus ≠ [] := by
    rintro rfl
    rw [length_nil] at hlen
    omega
  have hmax' : taskCnt < 2 ^ 16 := by omega
  suffices hlayout : ∃ nodes, initTaskLayout nodeCnt hosts taskCnt cpusPerNode cpuCountReps cpusPerTask
      taskDist planeSize = some (.success nodes) ∧ Stored cpus.length nodes taskCnt by
    obtain ⟨nodes, hmade, hstored⟩ := hlayout
    refine ⟨nodes, hmade, hstored.length.trans hlen, hstored.dealt.perm, hstored.tasks, ?_⟩
    intro n hn
    exact hstored.dealt.sorted n.tids (mem_map_of_mem hn)
  obtain ⟨cyclic, hcyclic, hcyclic'⟩ := taskLayoutCyclic_eq hne hmax'
  obtain ⟨block, hblock, hblock'⟩ := taskLayoutBlock_eq hne hmax'
  rw [initTaskLayout, if_neg (by omega), if_neg (by omega), hcpus, Option.bind_some]
  cases taskDist with
  | cyclic | cyclicCyclic | cyclicBlock => exact ⟨cyclic, by rw [hcyclic, Option.map_some], hcyclic'⟩
  | plane => exact taskLayoutPlane_eq hne hmax' (hplane rfl)
  | block | blockCyclic | blockBlock | unknown =>
    exact ⟨block, by rw [hblock, Option.map_some], hblock'⟩

/-- The layout of the comment in the source: 6 tasks in planes of 2 on nodes with 4, 1 and 1 cpus. -/
theorem tasks_placed_once_plane :
    initTaskLayout 3 3 6 [4, 1] [1, 2] 0 .plane 2 =
      some (.success [⟨4, 4, [0, 1, 4, 5]⟩, ⟨1, 1, [2]⟩, ⟨1, 1, [3]⟩]) ∧
    ∃ nodes, initTaskLayout 3 3 6 [4, 1] [1, 2] 0 .plane 2 = some (.success nodes) ∧
      nodes.length = 3 ∧ (nodes.map Node.tids).flatten.Perm (range 6) ∧
      (∀ n ∈ nodes, n.tasks = n.tids.length) ∧ ∀ n ∈ nodes, n.tids.Pairwise (· < ·) :=
  ⟨by decide, tasks_placed_once (by decide) (by decide) (by decide) (fun _ => by decide)
    (show nodeCpus 1 3 [4, 1] [1, 2] 0 = some [4, 1, 1] by decide)⟩

/-! ## Counts and cpus

  The distributions count alike, whatever they store: without its numbers a node of one is the node of another.
  And while there are cpus for the tasks, no round comes that gives them out without regard to cpus: before round
  `j` every node has `min cpus j` tasks, so that when no node has a cpu left, all cpus are used. -/

theorem round_count :
    round countTask j overSubscribe taskCnt (nodes.map Node.count) taskid =
      ((round storeTask j overSubscribe taskCnt nodes taskid).1.map Node.count,
        (round storeTask j overSubscribe taskCnt nodes taskid).2) := by
  induction nodes generalizing taskid with
  | nil => rfl
  | cons n ns ih =>
    have hcpus : n.count.cpus = n.cpus := rfl
    rw [map_cons, round, round, hcpus, ih, ih]
    split_ifs <;> rfl

theorem rounds_count (fuel j : Nat) (overSubscribe : Bool) (nodes : List Node) (taskid : Nat) :
    rounds countTask taskCnt fuel j overSubscribe (nodes.map Node.count) taskid =
      (rounds storeTask taskCnt fuel j overSubscribe nodes taskid).map (map Node.count) := by
  induction fuel generalizing j overSubscribe nodes taskid with
  | zero => rfl
  | succ fuel ih =>
    rw [rounds, rounds, round_count]
    split_ifs
    · exact ih _ _ _ _
    · rfl

theorem numberTasks_count (nodes : List Node) (taskid : Nat) :
    (numberTasks nodes taskid).map Node.count = nodes.map Node.count := by
  induction nodes generalizing taskid with
  | nil => rfl
  | cons n ns ih =>
    rw [numberTasks, map_cons, ih]
    rfl

theorem map_tasks_of_count (h : nodes.map Node.count = nodes'.map Node.count) :
    nodes.map Node.tasks = nodes'.map Node.tasks := by
  have htasks := congrArg (map Node.tasks) h
  rw [map_map, map_map] at htasks
  exact htasks

/-- The nodes have these cpus, and no more tasks. -/
def Within (cpus : List Nat) (nodes : List Node) : Prop :=
  nodes.map Node.cpus = cpus ∧ ∀ n ∈ nodes, n.tasks ≤ n.cpus

theorem Within.of_count (h : Within cpus nodes) (hsame : nodes'.map Node.count = nodes.map Node.count) :
    Within cpus nodes' := by
  constructor
  · have hcpus := congrArg (map Node.cpus) hsame
    rw [map_map, map_map] at hcpus
    exact hcpus.trans h.1
  · intro n hn
    have hmem : n.count ∈ nodes.map Node.count := hsame ▸ mem_map_of_mem hn
    obtain ⟨m, hm, heq⟩ := mem_map.1 hmem
    obtain ⟨hcpus, htasks, -⟩ := Node.mk.inj heq
    rw [← hcpus, ← htasks]
    exact h.2 m hm

/-- A round that looks at cpus, on nodes with `min cpus j` tasks. -/
theorem round_level {r : List Node × Nat × Bool} (hr : round countTask j false taskCnt nodes taskid = r)
    (hmod : ∀ n ∈ nodes, n.tasks + 1 < 2 ^ 16) (hlevel : ∀ n ∈ nodes, n.tasks = min n.cpus j) :
    Within (nodes.map Node.cpus) r.1 ∧ (r.2.1 < taskCnt → ∀ n ∈ r.1,
      n.tasks = min n.cpus (j + 1) ∧ (r.2.2 = false → n.cpus ≤ j + 1)) := by
  subst hr
  induction nodes generalizing taskid with
  | nil => simp [round, Within]
  | cons n ns ih =>
    obtain ⟨hn, hns⟩ := forall_mem_cons.1 hlevel
    obtain ⟨hmodn, hmodns⟩ := forall_mem_cons.1 hmod
    rw [round]
    split_ifs with hmore hfree
    · obtain ⟨⟨h1, h2⟩, h3⟩ := @ih (taskid + 1) hmodns hns
      have hcpu : j < n.cpus := hfree.resolve_right (by simp)
      have htasks : (countTask taskid n).tasks = j + 1 := by
        show (n.tasks + 1) % 2 ^ 16 = j + 1
        omega
      refine ⟨⟨congrArg (n.cpus :: ·) h1, forall_mem_cons.2 ⟨htasks.trans_le hcpu, h2⟩⟩, ?_⟩
      intro hleft
      refine forall_mem_cons.2 ⟨⟨htasks.trans (min_eq_right hcpu).symm, ?_⟩, ?_⟩
      · intro hspace
        exact not_lt.1 (of_decide_eq_false (Bool.or_eq_false_iff.1 hspace).1)
      · intro m hm
        exact ⟨(h3 hleft m hm).1, fun hspace => (h3 hleft m hm).2 (Bool.or_eq_false_iff.1 hspace).2⟩
    · obtain ⟨⟨h1, h2⟩, h3⟩ := @ih taskid hmodns hns
      have hcpu : n.cpus ≤ j := not_lt.1 fun h => hfree (.inl h)
      refine ⟨⟨congrArg (n.cpus :: ·) h1, forall_mem_cons.2 ⟨by omega, h2⟩⟩, ?_⟩
      intro hleft
      exact forall_mem_cons.2 ⟨⟨by omega, fun _ => by omega⟩, h3 hleft⟩
    · refine ⟨⟨rfl, ?_⟩, fun hleft => absurd hleft hmore⟩
      intro m hm
      rw [hlevel m hm]
      exact min_le_left _ _

/-- **With cpus for all tasks, no node is given more tasks than cpus.** -/
theorem rounds_within {fuel : Nat} (hmax : taskCnt < 2 ^ 16) (hcap : taskCnt ≤ (nodes.map Node.cpus).sum)
    (hlevel : ∀ n ∈ nodes, n.tasks = min n.cpus j) (hcount : Counted k nodes taskid)
    (h : rounds countTask taskCnt fuel j false nodes taskid = some nodes') :
    Within (nodes.map Node.cpus) nodes' := by
  induction fuel generalizing j nodes taskid with
  | zero => cases h
  | succ fuel ih =>
    rw [rounds] at h
    split_ifs at h with hmore
    · have hmod : ∀ n ∈ nodes, n.tasks + 1 < 2 ^ 16 := by
        intro n hn
        have hle : n.tasks ≤ (nodes.map Node.tasks).sum := le_sum_of_mem (mem_map_of_mem hn)
        rw [hcount.sum] at hle
        omega
      have hkept := @round_keeps countTask nodes j taskid taskCnt false (Counted k)
        (fun pre n post taskid hmore h => h.countTask hmax hmore) [] hcount
      cases hr : round countTask j false taskCnt nodes taskid with | mk ns next =>
      obtain ⟨last, space⟩ := next
      rw [hr] at h hkept
      obtain ⟨hwithin, hfull⟩ := round_level hr hmod hlevel
      by_cases hleft : last < taskCnt
      · cases space with
        | true =>
          rw [← hwithin.1]
          refine ih ?_ (fun n hn => (hfull hleft n hn).1) hkept h
          rw [hwithin.1]
          exact hcap
        | false =>
          -- all cpus are used, so no task is left
          have hall : ns.map Node.tasks = ns.map Node.cpus := by
            refine map_congr_left ?_
            intro n hn
            rw [(hfull hleft n hn).1, min_eq_left ((hfull hleft n hn).2 rfl)]
          have hsum : (ns.map Node.tasks).sum = last := hkept.sum
          rw [hall, hwithin.1] at hsum
          omega
      · cases fuel with
        | zero => cases h
        | succ fuel =>
          rw [rounds, if_neg hleft] at h
          cases h
          exact hwithin
    · cases h
      refine ⟨rfl, ?_⟩
      intro n hn
      rw [hlevel n hn]
      exact min_le_left _ _

/-- **No node gets more tasks than cpus, and block and cyclic count alike.**  On nodes with cpus for all tasks the
    three layouts are made; in each of them no node has more tasks than cpus, block and cyclic give every node the
    same number of tasks, and block gives it the next ones. -/
theorem layouts_within_cpus (cpus : List Nat) (hmax : taskCnt ≤ 65535) (hcap : taskCnt ≤ cpus.sum) :
    ∃ block cyclic plane, taskLayoutBlock taskCnt (emptyNodes cpus) = some block ∧
      taskLayoutCyclic taskCnt (emptyNodes cpus) = some cyclic ∧
      taskLayoutPlane 1 taskCnt (emptyNodes cpus) = some (.success plane) ∧
      Within cpus block ∧ Within cpus cyclic ∧ Within cpus plane ∧
      block.map Node.tasks = cyclic.map Node.tasks ∧
      block.map Node.tids = blocks 0 (block.map Node.tasks) := by
  have hmax' : taskCnt < 2 ^ 16 := by omega
  rcases eq_or_ne cpus [] with rfl | hne
  · obtain rfl : taskCnt = 0 := Nat.le_zero.1 hcap
    have hnil : Within [] [] := ⟨rfl, by simp⟩
    exact ⟨[], [], [], rfl, rfl, rfl, hnil, hnil, hnil, rfl, rfl⟩
  obtain ⟨nodes, hcount, hnodes⟩ := countTasks_eq hne hmax'
  obtain ⟨cyclic, hcyclic, -⟩ := taskLayoutCyclic_eq hne hmax'
  obtain ⟨plane, hplane, -, hplanes⟩ :=
    planeRounds_eq Nat.one_pos (Nat.zero_le _) (Nat.lt_succ_self taskCnt) hnodes.planned
  have hempty : ∀ f : Node → Nat, (emptyNodes cpus).map f = cpus.map fun c => f ⟨c, 0, []⟩ := fun f => map_map ..
  have hwithin : Within cpus nodes := by
    have hcpus : (emptyNodes cpus).map Node.cpus = cpus := (hempty _).trans (map_id cpus)
    rw [← hcpus]
    refine rounds_within hmax' (hcap.trans_eq (congrArg sum hcpus.symm)) ?_ counted_empty hcount
    intro n hn
    obtain ⟨c, -, rfl⟩ := mem_map.1 hn
    exact (Nat.min_zero c).symm
  have hsame : cyclic.map Node.count = nodes := by
    have h := @rounds_count taskCnt (roundFuel taskCnt) 0 false (emptyNodes cpus) 0
    have hforget : (emptyNodes cpus).map Node.count = emptyNodes cpus := map_map ..
    rw [hforget] at h
    exact Option.some.inj ((congrArg (Option.map _) hcyclic).symm.trans (h.symm.trans hcount))
  have hcounts : nodes.map Node.count = nodes := by
    rw [← hsame, map_map]
    rfl
  have hcyclics := hsame.trans hcounts.symm
  have hblocks := numberTasks_count nodes 0
  refine ⟨numberTasks nodes 0, cyclic, plane, ?_, hcyclic, ?_, hwithin.of_count hblocks,
    hwithin.of_count hcyclics, hwithin.of_count hplanes, map_tasks_of_count (hblocks.trans hcyclics.symm), ?_⟩
  · rw [taskLayoutBlock, hcount, Option.map_some]
  · rw [taskLayoutPlane, if_neg Nat.one_ne_zero, hcount, Option.bind_some, hplane, Option.map_some, if_pos rfl]
  · rw [map_tasks_of_count hblocks]
    exact numberTasks_tids

theorem layouts_within_cpus_three :
    ∃ block, taskLayoutBlock 5 (emptyNodes [3, 1, 2]) = some block ∧ Within [3, 1, 2] block := by
  have hmade := @layouts_within_cpus 5 [3, 1, 2] (by decide) (by decide)
  obtain ⟨block, -, -, hblock, -, -, hwithin, -⟩ := hmade
  exact ⟨block, hblock, hwithin⟩

end Slurmpp.StepLayout
