/-
  The cores of a job (`src/common/job_resources.c`): one bitmap over all of its nodes.

  1. **Groups** — `sockets_per_node[i]` and `cores_per_socket[i]` apply to `sock_core_rep_count[i]` nodes in a row.
     `build_job_resources` starts a new group whenever a node differs from the one before (`Started`).
  2. **Walking the groups** — five functions walk the encoding on their own.  All of them come out at the place
     where the node's cores begin: `nodeSlice_eq`, `offsetLoop_eq` and `cntLoop_eq`.
  3. **Addressing** — so the triples (node, socket, core) in lexicographic order are the positions of the bitmap
     (`core_addressing`).  `core_cnt` is an `int`, and what the walks add up never exceeds it.
-/
import Slurmpp.Common.Bitstring
import Slurmpp.Lib.Blocks
import Slurmpp.Lib.Reader

namespace Slurmpp.JobRes

open Bitstring Blocks List Option Nat

/-! ## The structure -/

/-- `struct job_resources`.  A `NULL` array is `none`. -/
structure JobResources where
  coreBitmap : Option Bitstr
  coreBitmapUsed : Option Bitstr
  cpuArrayCnt : BitVec 32
  cpuArrayValue : Option (List (BitVec 16))
  cpuArrayReps : Option (List (BitVec 32))
  cpus : Option (List (BitVec 16))
  cpusUsed : Option (List (BitVec 16))
  coresPerSocket : Option (List (BitVec 16))
  memoryAllocated : Option (List (BitVec 32))
  memoryUsed : Option (List (BitVec 32))
  nhosts : BitVec 32
  nodeBitmap : Option Bitstr
  nodeReq : BitVec 32
  nodes : Option (List Byte)
  ncpus : BitVec 32
  sockCoreRepCount : Option (List (BitVec 32))
  socketsPerNode : Option (List (BitVec 16))
deriving DecidableEq

def createJobResources : JobResources :=
  ⟨none, none, 0, none, none, none, none, none, none, none, 0, none, 0, none, 0, none, none⟩

/-- What `build_job_resources` reads of a `struct node_record` and of its `config_ptr`. -/
structure NodeRecord where
  sockets : BitVec 16
  cores : BitVec 16
  configSockets : BitVec 16
  configCores : BitVec 16

structure Shape where
  sockets : BitVec 16
  cores : BitVec 16
deriving DecidableEq

def Shape.count (s : Shape) : Nat := s.sockets.toNat * s.cores.toNat

/-- One entry of the three arrays `sockets_per_node`, `cores_per_socket`, `sock_core_rep_count`. -/
structure Group extends Shape where
  reps : BitVec 32
deriving DecidableEq

/-! ## `build_job_resources` -/

/-- The shape of a node, as configured or as found. -/
def NodeRecord.shape (node : NodeRecord) (fastSchedule : Bool) : Shape :=
  if fastSchedule then ⟨node.configSockets, node.configCores⟩ else ⟨node.sockets, node.cores⟩

/-- The variables of the loop: the three arrays entry by entry, `sock_inx + 1` and `core_cnt`. -/
structure BuildState where
  groups : List Group
  started : Nat
  coreCnt : Nat

/-- The body of the loop for a node of the job; `none` when it writes outside of the arrays, or when
    the count of cores is no `int`. -/
def buildNode (shape : Shape) (s : BuildState) : Option BuildState :=
  -- a new group for the first node and for one that differs
  let fresh := s.started = 0 ∨ ((s.groups[s.started - 1]?).map Group.toShape ≠ some shape)
  let started := if fresh then s.started + 1 else s.started
  let groups := if fresh then s.groups.modify (started - 1) (fun g => ⟨shape, g.reps⟩) else s.groups
  let coreCnt := s.coreCnt + shape.count
  if started ≤ s.groups.length ∧ coreCnt < 2 ^ 31 then
    some ⟨groups.modify (started - 1) (fun g => ⟨g.toShape, g.reps + 1⟩), started, coreCnt⟩
  else none

def buildLoop (nodeBitmap : Bitstr) (shapeOf : Nat → Shape) : Nat → Nat → BuildState → Option BuildState
  | 0, _, s => some s
  | n + 1, i, s =>
    if bitTest nodeBitmap i then
      (buildNode (shapeOf i) s).bind (buildLoop nodeBitmap shapeOf n (i + 1))
    else buildLoop nodeBitmap shapeOf n (i + 1) s

/-- The outcome of `build_job_resources`; a `fault` ends the process or is undefined. -/
inductive Built
  | success (r : JobResources)
  | error
  | fault

def buildJobResources (r : JobResources) (nodeRecTable : Nat → NodeRecord) (fastSchedule : Bool) : Built :=
  match r.nodeBitmap with
  | none => .error
  | some nodeBitmap =>
    -- the arrays come from xmalloc
    let s : BuildState := ⟨replicate r.nhosts.toNat ⟨⟨0, 0⟩, 0⟩, 0, 0⟩
    match buildLoop nodeBitmap (fun i => (nodeRecTable i).shape fastSchedule) nodeBitmap.bits 0 s with
    | none => .fault
    | some s =>
      match bitAlloc s.coreCnt with
      | none => .fault
      | some coreBitmap => .success { r with
          socketsPerNode := some (s.groups.map (·.sockets))
          coresPerSocket := some (s.groups.map (·.cores))
          sockCoreRepCount := some (s.groups.map (·.reps))
          coreBitmap := some coreBitmap
          coreBitmapUsed := some coreBitmap }

/-! ## Walking the groups -/

/-- The entries of the three arrays that the loops `for (i=0; i<nhosts; i++)` read; `none` when there
    are fewer. -/
def groups (r : JobResources) : Option (List Group) :=
  match r.socketsPerNode, r.coresPerSocket, r.sockCoreRepCount with
  | some sockets, some cores, some reps =>
    let all := (sockets.zip (cores.zip reps)).map fun e => (⟨⟨e.1, e.2.1⟩, e.2.2⟩ : Group)
    if r.nhosts.toNat ≤ all.length then some (all.take r.nhosts.toNat) else none
  | _, _, _ => none

/-- The loop of `get_job_resources_offset`; `none` is `return -1`. -/
def offsetLoop : List Group → Nat → Nat → Nat → Nat → Option Nat
  | [], _, _, _, bitInx => some bitInx
  | g :: gs, nodeId, socketId, coreId, bitInx =>
    if g.reps.toNat ≤ nodeId then
      offsetLoop gs (nodeId - g.reps.toNat) socketId coreId
        (bitInx + g.sockets.toNat * g.cores.toNat * g.reps.toNat)
    else if socketId ≥ g.sockets.toNat then none
    else if coreId ≥ g.cores.toNat then none
    else some (bitInx + g.sockets.toNat * g.cores.toNat * nodeId + g.cores.toNat * socketId + coreId)

def getJobResourcesOffset (r : JobResources) (nodeId socketId coreId : Nat) : Option Int :=
  (groups r).bind fun gs => r.coreBitmap.map fun coreBitmap =>
    match offsetLoop gs nodeId socketId coreId 0 with
    | none => -1
    | some bitInx => if bitInx ≥ coreBitmap.bits then -1 else bitInx

/-- The loop that `get_job_resources_node`, `_change_job_resources_node`, `count_job_resources_node` and
    `copy_job_resources_node` have in common: `bit_inx` and `core_cnt`. -/
def nodeSlice : List Group → Nat → Nat → Nat × Nat
  | [], _, bitInx => (bitInx, 0)
  | g :: gs, nodeId, bitInx =>
    if g.reps.toNat ≤ nodeId then
      nodeSlice gs (nodeId - g.reps.toNat) (bitInx + g.sockets.toNat * g.cores.toNat * g.reps.toNat)
    else (bitInx + g.sockets.toNat * g.cores.toNat * nodeId, g.sockets.toNat * g.cores.toNat)

/-- The slice of a node, if it has cores and lies in the bitmap. -/
def sliceIn (gs : List Group) (coreBitmap : Bitstr) (nodeId : Nat) : Option (Nat × Nat) :=
  let slice := nodeSlice gs nodeId 0
  if slice.2 < 1 then none
  else if slice.1 + slice.2 > coreBitmap.bits then none
  else some slice

/-- The loop of `get_job_resources_node`: is one of `n` bits set? -/
def anyBit (b : Bitstr) : Nat → Nat → Bool
  | 0, _ => false
  | n + 1, bitInx => if bitTest b bitInx then true else anyBit b n (bitInx + 1)

def getJobResourcesNode (r : JobResources) (nodeId : Nat) : Option Bool :=
  (groups r).bind fun gs => r.coreBitmap.map fun coreBitmap =>
    match sliceIn gs coreBitmap nodeId with
    | none => false
    | some slice => anyBit coreBitmap slice.2 slice.1

/-- The loop of `_change_job_resources_node` over `n` bits. -/
def changeBits (newValue : Bool) : Nat → Nat → Bitstr → Option Bitstr
  | 0, _, b => some b
  | n + 1, bitInx, b =>
    (if newValue then bitSet b bitInx else bitClear b bitInx).bind (changeBits newValue n (bitInx + 1))

/-- `_change_job_resources_node`: the structure afterwards, and whether it returns `SLURM_SUCCESS`. -/
def changeJobResourcesNode (r : JobResources) (nodeId : Nat) (newValue : Bool) : Option (JobResources × Bool) :=
  (groups r).bind fun gs => r.coreBitmap.bind fun coreBitmap =>
    match sliceIn gs coreBitmap nodeId with
    | none => some (r, false)
    | some slice => (changeBits newValue slice.2 slice.1 coreBitmap).map fun b =>
        ({ r with coreBitmap := some b }, true)

def setJobResourcesNode (r : JobResources) (nodeId : Nat) : Option (JobResources × Bool) :=
  changeJobResourcesNode r nodeId true

def clearJobResourcesNode (r : JobResources) (nodeId : Nat) : Option (JobResources × Bool) :=
  changeJobResourcesNode r nodeId false

/-- The loop of `get_job_resources_cnt`.  `node_inx` starts at -1 and is compared as an unsigned number. -/
def cntLoop : List Group → Nat → Int → Option Shape
  | [], _, _ => none
  | g :: gs, nodeId, nodeInx =>
    let nodeInx := nodeInx + g.reps.toNat
    if (nodeId : Int) ≤ nodeInx % 2 ^ 32 then some g.toShape else cntLoop gs nodeId nodeInx

/-- `get_job_resources_cnt`: the counts it writes, and whether it returns `SLURM_SUCCESS`. -/
def getJobResourcesCnt (r : JobResources) (nodeId : Nat) : Option (Shape × Bool) :=
  (groups r).map fun gs =>
    match cntLoop gs nodeId (-1) with
    | some shape => (shape, true)
    | none => (⟨0, 0⟩, false)

/-! ## What the groups stand for -/

def expand (gs : List Group) : List Shape := gs.flatMap fun g => replicate g.reps.toNat g.toShape

def coresOf (shapes : List Shape) (n : Nat) : Nat := (shapes[n]?.map Shape.count).getD 0

variable {gs : List Group} {g : Group} {shapes : List Shape} {shape : Shape} {n m k : Nat}

theorem expand_cons : expand (g :: gs) = replicate g.reps.toNat g.toShape ++ expand gs := rfl

theorem coresOf_of_lt (h : shapes[n]? = some shape) : coresOf shapes n = shape.count := by
  rw [coresOf, h]
  rfl

theorem coresOf_of_le (h : shapes.length ≤ n) : coresOf shapes n = 0 := by
  rw [coresOf, getElem?_eq_none h]
  rfl

theorem getElem?_expand_cons : (expand (g :: gs))[n]? =
    if g.reps.toNat ≤ n then (expand gs)[n - g.reps.toNat]? else some g.toShape := by
  rw [expand_cons]
  split_ifs with h
  · rw [getElem?_append_right (by rw [length_replicate]; exact h), length_replicate]
  · rw [getElem?_append_left (by rw [length_replicate]; omega), getElem?_replicate, if_pos (by omega)]

theorem coresOf_expand_cons : coresOf (expand (g :: gs)) n =
    if g.reps.toNat ≤ n then coresOf (expand gs) (n - g.reps.toNat) else g.count := by
  rw [coresOf, getElem?_expand_cons]
  split_ifs <;> rfl

theorem start_expand_nil : start (coresOf (expand [])) n = 0 := start_eq_zero fun _ _ => rfl

theorem start_expand_cons :
    start (coresOf (expand (g :: gs))) n =
      if g.reps.toNat ≤ n then g.count * g.reps.toNat + start (coresOf (expand gs)) (n - g.reps.toNat)
      else g.count * n := by
  have hle : ∀ k ≤ g.reps.toNat, start (coresOf (expand (g :: gs))) k = g.count * k := by
    intro k hk
    rw [← start_const]
    exact start_congr fun m hm => by rw [coresOf_expand_cons, if_neg (by omega)]
  split_ifs with h
  · obtain ⟨m, rfl⟩ := Nat.exists_eq_add_of_le h
    rw [start_add, hle _ le_rfl, Nat.add_sub_cancel_left]
    congr 1
    exact start_congr fun i _ => by rw [coresOf_expand_cons, if_pos (by omega), Nat.add_sub_cancel_left]
  · exact hle n (by omega)

/-! ## What the walks find -/

/-- **The slice of a node** begins where the nodes before it end, and is as long as the node has cores. -/
theorem nodeSlice_eq (n b : Nat) : nodeSlice gs n b = (b + start (coresOf (expand gs)) n, coresOf (expand gs) n) := by
  induction gs generalizing n b with
  | nil =>
    rw [nodeSlice, start_expand_nil]
    rfl
  | cons g gs ih =>
    rw [nodeSlice, start_expand_cons, coresOf_expand_cons]
    split_ifs with h
    · rw [ih, add_assoc]
      rfl
    · rfl

/-- **The offset of a core**: a node that is not there gives the number of all cores. -/
theorem offsetLoop_eq (n s c b : Nat) :
    offsetLoop gs n s c b =
      match (expand gs)[n]? with
      | none => some (b + start (coresOf (expand gs)) n)
      | some shape =>
        if s < shape.sockets.toNat ∧ c < shape.cores.toNat then
          some (b + start (coresOf (expand gs)) n + shape.cores.toNat * s + c)
        else none := by
  induction gs generalizing n b with
  | nil =>
    rw [offsetLoop, start_expand_nil]
    rfl
  | cons g gs ih =>
    rw [offsetLoop, start_expand_cons, getElem?_expand_cons]
    by_cases h : g.reps.toNat ≤ n
    · rw [if_pos h, if_pos h, if_pos h, ih, add_assoc b]
      rfl
    · rw [if_neg h, if_neg h, if_neg h]
      dsimp only
      by_cases hs : s ≥ g.sockets.toNat
      · rw [if_pos hs, if_neg (by omega)]
      · by_cases hc : c ≥ g.cores.toNat
        · rw [if_neg hs, if_pos hc, if_neg (by omega)]
        · rw [if_neg hs, if_neg hc, if_pos (by omega)]
          rfl

/-- **The counts of a node.**  `node_inx` is the number of nodes before the group, less one; when there are
    none yet, the group must have nodes, or -1 is compared as the largest number. -/
theorem cntLoop_eq {n acc : Nat} (hle : acc ≤ n) (hfit : acc + (expand gs).length < 2 ^ 32)
    (hfirst : acc = 0 → ∀ g ∈ gs.head?, 0 < g.reps.toNat) :
    cntLoop gs n ((acc : Int) - 1) = (expand gs)[n - acc]? := by
  induction gs generalizing acc with
  | nil => rfl
  | cons g gs ih =>
    have hpos : 0 < acc + g.reps.toNat := by
      rcases Nat.eq_zero_or_pos acc with h | h
      · have := hfirst h g rfl
        omega
      · omega
    have hlen : (expand (g :: gs)).length = g.reps.toNat + (expand gs).length := by
      rw [expand_cons, length_append, length_replicate]
    have hmod : ((acc : Int) - 1 + g.reps.toNat) % 2 ^ 32 = ((acc + g.reps.toNat : Nat) : Int) - 1 := by
      omega
    rw [cntLoop, hmod, getElem?_expand_cons]
    by_cases h : g.reps.toNat ≤ n - acc
    · rw [if_neg (by omega), if_pos h,
        show (acc : Int) - 1 + g.reps.toNat = ((acc + g.reps.toNat : Nat) : Int) - 1 by omega,
        ih (by omega) (by omega) (by omega), Nat.sub_sub]
    · rw [if_pos (by omega), if_neg h]

/-! ## What is built -/

/-- An array entry as `xmalloc` gives it. -/
def noGroup : Group := ⟨⟨0, 0⟩, 0⟩

/-- The arrays after the nodes `shapes`: groups of one or more nodes, and empty entries behind them. -/
structure Started (nhosts : Nat) (shapes : List Shape) (done : List Group) (s : BuildState) : Prop where
  groups : s.groups = done ++ replicate (nhosts - done.length) noGroup
  started : s.started = done.length
  room : done.length ≤ nhosts
  expand : expand done = shapes
  pos : ∀ g ∈ done, 0 < g.reps.toNat
  coreCnt : s.coreCnt = start (coresOf shapes) shapes.length

theorem modify_length_append {α : Type} (xs ys : List α) (a : α) (f : α → α) :
    (xs ++ a :: ys).modify xs.length f = xs ++ f a :: ys := by
  induction xs with
  | nil => rfl
  | cons x xs ih => exact congrArg (x :: ·) ih

theorem start_snoc :
    start (coresOf (shapes ++ [shape])) (shapes ++ [shape]).length =
      start (coresOf shapes) shapes.length + shape.count := by
  rw [length_append, length_singleton, start_succ, @coresOf_of_lt _ shape _ (by simp)]
  congr 1
  refine start_congr fun m hm => ?_
  rw [coresOf, coresOf, getElem?_append_left hm]

theorem expand_append (gs hs : List Group) : expand (gs ++ hs) = expand gs ++ expand hs :=
  flatMap_append

variable {nhosts sock : Nat} {done : List Group} {s s' : BuildState}

section

variable (h : Started nhosts shapes done s)
include h

theorem Started.length_groups : s.groups.length = nhosts := by
  have := h.room
  rw [h.groups, length_append, length_replicate]
  omega

theorem Started.fresh_iff :
    (s.started = 0 ∨ ((s.groups[s.started - 1]?).map Group.toShape ≠ some shape)) ↔
      ¬∃ pre last, done = pre ++ [last] ∧ last.toShape = shape := by
  rw [h.started, h.groups]
  rcases eq_nil_or_concat done with rfl | ⟨pre, last, rfl⟩
  · simp
  · simp [concat_eq_append]

theorem Started.snoc_fresh (hroom : done.length < nhosts) :
    Started nhosts (shapes ++ [shape]) (done ++ [⟨shape, 1⟩])
      ⟨(s.groups.modify done.length (fun g => ⟨shape, g.reps⟩)).modify done.length
        (fun g => ⟨g.toShape, g.reps + 1⟩), done.length + 1, s.coreCnt + shape.count⟩ := by
  have hzero : replicate (nhosts - done.length) noGroup =
      noGroup :: replicate (nhosts - (done.length + 1)) noGroup := by
    rw [show nhosts - done.length = nhosts - (done.length + 1) + 1 by omega, replicate_succ]
  constructor
  · rw [h.groups, hzero, modify_length_append, modify_length_append, length_append, length_singleton, append_assoc]
    rfl
  · rw [length_append, length_singleton]
  · rw [length_append, length_singleton]
    exact hroom
  · rw [expand_append, h.expand]
    rfl
  · exact forall_mem_append.2 ⟨h.pos, forall_mem_singleton.2 one_pos⟩
  · rw [start_snoc, ← h.coreCnt]

omit h in
theorem Started.snoc_same {pre : List Group} {last : Group} (h : Started nhosts shapes (pre ++ [last]) s)
    (hlen : shapes.length + 1 < 2 ^ 32) :
    Started nhosts (shapes ++ [last.toShape]) (pre ++ [⟨last.toShape, last.reps + 1⟩])
      ⟨s.groups.modify pre.length (fun g => ⟨g.toShape, g.reps + 1⟩), pre.length + 1,
        s.coreCnt + last.toShape.count⟩ := by
  -- the group is not larger than the job
  have hreps : last.reps.toNat ≤ shapes.length := by
    rw [← h.expand, expand_append, length_append, expand_cons, length_append, length_replicate]
    omega
  have hsucc : (last.reps + 1).toNat = last.reps.toNat + 1 := by
    rw [BitVec.toNat_add]
    exact mod_eq_of_lt (by show last.reps.toNat + 1 < 2 ^ 32; omega)
  have hsame : (pre ++ [(⟨last.toShape, last.reps + 1⟩ : Group)]).length = (pre ++ [last]).length := by
    simp
  constructor
  · rw [h.groups, append_assoc, singleton_append, modify_length_append, hsame, append_assoc]
    rfl
  · rw [length_append]
    rfl
  · rw [hsame]
    exact h.room
  · have hold := h.expand
    rw [expand_append] at hold ⊢
    rw [← hold, append_assoc, expand_cons, expand_cons, hsucc, replicate_succ', append_assoc, append_assoc]
    rfl
  · refine forall_mem_append.2 ⟨(forall_mem_append.1 h.pos).1, forall_mem_singleton.2 ?_⟩
    rw [hsucc]
    omega
  · rw [start_snoc, ← h.coreCnt]

theorem started_buildNode (hlen : shapes.length + 1 < 2 ^ 32)
    (hs : buildNode shape s = some s') : ∃ done', Started nhosts (shapes ++ [shape]) done' s' := by
  have hgroups := h.length_groups
  unfold buildNode at hs
  by_cases hfresh : s.started = 0 ∨ ((s.groups[s.started - 1]?).map Group.toShape ≠ some shape)
  · simp only [if_pos hfresh] at hs
    rw [h.started, Nat.add_sub_cancel] at hs
    obtain ⟨hroom, hs⟩ := ite_none_right_eq_some.1 hs
    cases hs
    exact ⟨_, h.snoc_fresh (by omega)⟩
  · simp only [if_neg hfresh] at hs
    rw [h.fresh_iff, not_not] at hfresh
    obtain ⟨pre, last, rfl, rfl⟩ := hfresh
    have hstarted : s.started = pre.length + 1 := by simpa using h.started
    rw [hstarted, Nat.add_sub_cancel] at hs
    obtain ⟨-, hs⟩ := ite_none_right_eq_some.1 hs
    cases hs
    exact ⟨_, h.snoc_same hlen⟩

end

def jobShapes (nodeBitmap : Bitstr) (shapeOf : Nat → Shape) (i n : Nat) : List Shape :=
  ((range' i n).filter (bitTest nodeBitmap)).map shapeOf

theorem length_jobShapes_le (nodeBitmap : Bitstr) (shapeOf : Nat → Shape) (i n : Nat) :
    (jobShapes nodeBitmap shapeOf i n).length ≤ n := by
  rw [jobShapes, length_map]
  exact (length_filter_le ..).trans (by rw [length_range'])

theorem started_buildLoop {nodeBitmap : Bitstr} {shapeOf : Nat → Shape} {i : Nat}
    (h : Started nhosts shapes done s) (hlen : shapes.length + n < 2 ^ 32)
    (hs : buildLoop nodeBitmap shapeOf n i s = some s') :
    ∃ done', Started nhosts (shapes ++ jobShapes nodeBitmap shapeOf i n) done' s' := by
  induction n generalizing i shapes done s with
  | zero =>
    cases hs
    exact ⟨done, by simpa [jobShapes] using h⟩
  | succ n ih =>
    rw [buildLoop] at hs
    split at hs
    next hi =>
      obtain ⟨s1, hs1, hrest⟩ := bind_eq_some_iff.1 hs
      obtain ⟨done1, h1⟩ := started_buildNode h (by omega) hs1
      obtain ⟨done', h'⟩ := ih h1 (by rw [length_append, length_singleton]; omega) hrest
      refine ⟨done', ?_⟩
      rw [append_assoc] at h'
      have hcons : jobShapes nodeBitmap shapeOf i (n + 1) = shapeOf i :: jobShapes nodeBitmap shapeOf (i + 1) n := by
        simp [jobShapes, range'_succ, hi]
      rw [hcons]
      exact h'
    next hi =>
      obtain ⟨done', h'⟩ := ih h (by omega) hs
      have hskip : jobShapes nodeBitmap shapeOf i (n + 1) = jobShapes nodeBitmap shapeOf (i + 1) n := by
        simp [jobShapes, range'_succ, hi]
      rw [hskip]
      exact ⟨done', h'⟩

/-! ## Addressing -/

def totalCores (shapes : List Shape) : Nat := start (coresOf shapes) shapes.length

def IsCore (shapes : List Shape) (n s c : Nat) : Prop :=
  ∃ shape, shapes[n]? = some shape ∧ s < shape.sockets.toNat ∧ c < shape.cores.toNat

def Before (n s c n' s' c' : Nat) : Prop := n < n' ∨ (n = n' ∧ (s < s' ∨ (s = s' ∧ c < c')))

/-- A job whose groups stand for `shapes`, with any bitmap of the right size for its cores. -/
structure Addressed (job : JobResources) (shapes : List Shape) (cores : Bitstr) (done : List Group) : Prop where
  groups : ∃ unused, groups job = some (done ++ replicate unused noGroup)
  pos : ∀ g ∈ done, 0 < g.reps.toNat
  expand : expand done = shapes
  length : shapes.length < 2 ^ 32
  bitmap : job.coreBitmap = some cores
  bits : cores.bits = totalCores shapes

theorem expand_noGroup (unused : Nat) : expand (replicate unused noGroup) = [] := by
  simp [expand, noGroup]

variable {job : JobResources} {cores : Bitstr} {c s' c' : Nat}

theorem start_add_le_total (hn : shapes[n]? = some shape) :
    start (coresOf shapes) n + shape.count ≤ totalCores shapes := by
  obtain ⟨hlt, -⟩ := List.getElem?_eq_some_iff.1 hn
  rw [← coresOf_of_lt hn]
  exact start_add_le hlt

theorem mul_add_lt_count (hs : sock < shape.sockets.toNat) (hc : c < shape.cores.toNat) :
    shape.cores.toNat * sock + c < shape.count := by
  have : shape.cores.toNat * (sock + 1) ≤ shape.cores.toNat * shape.sockets.toNat := mul_le_mul_left _ hs
  rw [Shape.count, mul_comm shape.sockets.toNat]
  rw [mul_succ] at this
  omega

theorem exists_core_of_lt (hk : k < shape.count) :
    ∃ sock c, sock < shape.sockets.toNat ∧ c < shape.cores.toNat ∧ k = shape.cores.toNat * sock + c := by
  rw [Shape.count, Nat.mul_comm] at hk
  have hpos : 0 < shape.cores.toNat := Nat.pos_of_mul_pos_right (Nat.lt_of_le_of_lt (Nat.zero_le k) hk)
  refine ⟨k / shape.cores.toNat, k % shape.cores.toNat, ?_, Nat.mod_lt _ hpos, (Nat.div_add_mod ..).symm⟩
  exact Nat.div_lt_of_lt_mul hk

theorem anyBit_iff (b : Bitstr) : anyBit b n k = true ↔ ∃ i, k ≤ i ∧ i < k + n ∧ bitTest b i = true := by
  induction n generalizing k with
  | zero =>
    constructor
    · intro h
      simp [anyBit] at h
    · rintro ⟨i, h1, h2, -⟩
      omega
  | succ n ih =>
    rw [anyBit]
    by_cases hk : bitTest b k = true
    · rw [if_pos hk]
      exact iff_of_true rfl ⟨k, le_refl _, by omega, hk⟩
    · rw [if_neg hk, ih]
      constructor
      · rintro ⟨i, h1, h2, hi⟩
        exact ⟨i, by omega, by omega, hi⟩
      · rintro ⟨i, h1, h2, hi⟩
        have hne : i ≠ k := by
          rintro rfl
          exact hk hi
        exact ⟨i, by omega, by omega, hi⟩

theorem changeBits_eq (v : Bool) {b : Bitstr} (h : k + n ≤ b.bits) :
    ∃ b', changeBits v n k b = some b' ∧ Filled v b b' k (k + n) := by
  induction n generalizing k b with
  | zero => exact ⟨b, rfl, Filled.refl v b k⟩
  | succ n ih =>
    have hone := filled_put v (show k < b.bits by omega)
    obtain ⟨b', hb', hrest⟩ := ih (k := k + 1) (by rw [hone.bits]; omega)
    refine ⟨b', ?_, ?_⟩
    · rw [changeBits, ite_eq_put (by omega)]
      exact hb'
    · rw [show k + (n + 1) = k + 1 + n by omega]
      exact hone.trans hrest (by omega) (by omega)

theorem cntLoop_noGroup (unused n : Nat) :
    cntLoop (replicate unused noGroup) n (-1) = none ∨ cntLoop (replicate unused noGroup) n (-1) = some ⟨0, 0⟩ := by
  induction unused with
  | zero => exact .inl rfl
  | succ unused ih =>
    rw [replicate_succ, cntLoop]
    split
    · exact .inr rfl
    · exact ih

section

variable (h : Addressed job shapes cores done)

include h

theorem Addressed.expand_groups (unused : Nat) :
    JobRes.expand (done ++ replicate unused noGroup) = shapes := by
  rw [expand_append, expand_noGroup, append_nil, h.expand]

theorem Addressed.groups_eq : ∃ gs, JobRes.groups job = some gs ∧ JobRes.expand gs = shapes := by
  obtain ⟨unused, hgroups⟩ := h.groups
  exact ⟨_, hgroups, h.expand_groups unused⟩

theorem Addressed.offset_core (hn : shapes[n]? = some shape) (hs : sock < shape.sockets.toNat)
    (hc : c < shape.cores.toNat) : getJobResourcesOffset job n sock c =
      some ((start (coresOf shapes) n + (shape.cores.toNat * sock + c) : Nat) : Int) := by
  obtain ⟨gs, hgs, rfl⟩ := h.groups_eq
  have hlt := mul_add_lt_count hs hc
  have hle := start_add_le_total hn
  rw [getJobResourcesOffset, hgs, h.bitmap, bind_some, map_some, offsetLoop_eq, hn]
  dsimp only
  rw [if_pos ⟨hs, hc⟩]
  dsimp only
  rw [if_neg (by rw [h.bits]; omega), zero_add, add_assoc]

theorem Addressed.offset_other (hnot : ¬IsCore shapes n sock c) : getJobResourcesOffset job n sock c = some (-1) := by
  obtain ⟨gs, hgs, rfl⟩ := h.groups_eq
  rw [getJobResourcesOffset, hgs, h.bitmap, bind_some, map_some, offsetLoop_eq]
  cases hn : (JobRes.expand gs)[n]? with
  | none =>
    -- the walk has passed all nodes and stands at the end of the bitmap
    have hle : (JobRes.expand gs).length ≤ n := getElem?_eq_none_iff.1 hn
    have htotal : start (coresOf (JobRes.expand gs)) n = totalCores (JobRes.expand gs) :=
      start_eq_of_zero (fun i hi => coresOf_of_le hi) hle
    dsimp only
    rw [if_pos (by rw [h.bits, htotal, zero_add])]
  | some shape =>
    dsimp only
    rw [if_neg fun hin => hnot ⟨shape, hn, hin⟩]

theorem Addressed.slice_iff :
    (∃ sock c, IsCore shapes n sock c ∧ getJobResourcesOffset job n sock c = some (k : Int)) ↔
      start (coresOf shapes) n ≤ k ∧ k < start (coresOf shapes) n + coresOf shapes n := by
  constructor
  · rintro ⟨sock, c, ⟨shape, hn, hs, hc⟩, hoff⟩
    rw [h.offset_core hn hs hc, some.injEq, Nat.cast_inj] at hoff
    have := mul_add_lt_count hs hc
    rw [coresOf_of_lt hn]
    omega
  · rintro ⟨hle, hlt⟩
    cases hn : shapes[n]? with
    | none =>
      rw [coresOf, hn, map_none, getD_none] at hlt
      omega
    | some shape =>
      rw [coresOf_of_lt hn] at hlt
      have hin : k - start (coresOf shapes) n < shape.count := by omega
      obtain ⟨sock, c, hs, hc, hk⟩ := exists_core_of_lt hin
      refine ⟨sock, c, ⟨shape, hn, hs, hc⟩, ?_⟩
      rw [h.offset_core hn hs hc, ← hk, Nat.add_sub_cancel' hle]

/-- **Onto**: every position of the bitmap belongs to a core. -/
theorem Addressed.onto (hk : k < totalCores shapes) :
    ∃ n sock c, IsCore shapes n sock c ∧ getJobResourcesOffset job n sock c = some (k : Int) := by
  obtain ⟨n, -, hblock⟩ := exists_block hk
  obtain ⟨sock, c, hcore⟩ := h.slice_iff.2 hblock
  exact ⟨n, sock, c, hcore⟩

theorem Addressed.increasing {n' sock' : Nat} {k k' : Int}
    (hcore : IsCore shapes n sock c) (hcore' : IsCore shapes n' sock' c')
    (hoff : getJobResourcesOffset job n sock c = some k)
    (hoff' : getJobResourcesOffset job n' sock' c' = some k') (hlt : Before n sock c n' sock' c') : k < k' := by
  obtain ⟨shape, hn, hs, hc⟩ := hcore
  obtain ⟨shape', hn', hs', hc'⟩ := hcore'
  rw [h.offset_core hn hs hc, some.injEq] at hoff
  rw [h.offset_core hn' hs' hc', some.injEq] at hoff'
  rw [← hoff, ← hoff', Int.ofNat_lt]
  have hin := mul_add_lt_count hs hc
  rcases hlt with hlt | ⟨rfl, hlt⟩
  · have hblock := start_add_le (f := coresOf shapes) hlt
    rw [coresOf_of_lt hn] at hblock
    omega
  · cases hn.symm.trans hn'
    rcases hlt with hlt | ⟨rfl, hlt⟩
    · have : shape.cores.toNat * (sock + 1) ≤ shape.cores.toNat * sock' := mul_le_mul_left _ hlt
      rw [mul_succ] at this
      omega
    · omega

/-! ## The functions on whole nodes -/

theorem Addressed.slice_le (hpos : 0 < coresOf shapes n) :
    start (coresOf shapes) n + coresOf shapes n ≤ cores.bits := by
  have hn : n < shapes.length := by
    by_contra hn
    rw [coresOf_of_le (by omega)] at hpos
    omega
  rw [h.bits]
  exact start_add_le hn

theorem Addressed.sliceIn_eq (hgs : JobRes.expand gs = shapes) : sliceIn gs cores n =
      if 0 < coresOf shapes n then some (start (coresOf shapes) n, coresOf shapes n) else none := by
  subst hgs
  rw [sliceIn, nodeSlice_eq, zero_add]
  by_cases hpos : 0 < coresOf (JobRes.expand gs) n
  · have hle := h.slice_le hpos
    rw [if_neg (by omega), if_neg (by omega), if_pos hpos]
  · rw [if_pos (by omega), if_neg hpos]

theorem Addressed.hasCore_iff :
    (∃ sock c, IsCore shapes n sock c) ↔ 0 < coresOf shapes n := by
  constructor
  · rintro ⟨sock, c, shape, hn, hs, hc⟩
    have := mul_add_lt_count hs hc
    rw [coresOf_of_lt hn]
    omega
  · intro hpos
    obtain ⟨sock, c, hcore, -⟩ := h.slice_iff.2 ⟨le_refl _, Nat.lt_add_of_pos_right hpos⟩
    exact ⟨sock, c, hcore⟩

theorem Addressed.node (n : Nat) :
    ∃ any, getJobResourcesNode job n = some any ∧
      (any = true ↔ ∃ sock c k, IsCore shapes n sock c ∧
        getJobResourcesOffset job n sock c = some ((k : Nat) : Int) ∧ bitTest cores k = true) := by
  obtain ⟨gs, hgs, hexp⟩ := h.groups_eq
  refine ⟨_, by rw [getJobResourcesNode, hgs, h.bitmap]; rfl, ?_⟩
  have hslice : (∃ sock c k, IsCore shapes n sock c ∧
        getJobResourcesOffset job n sock c = some ((k : Nat) : Int) ∧ bitTest cores k = true) ↔
      ∃ k, start (coresOf shapes) n ≤ k ∧ k < start (coresOf shapes) n + coresOf shapes n ∧
        bitTest cores k = true := by
    constructor
    · rintro ⟨sock, c, k, hcore, hoff, hk⟩
      obtain ⟨h1, h2⟩ := h.slice_iff.1 ⟨sock, c, hcore, hoff⟩
      exact ⟨k, h1, h2, hk⟩
    · rintro ⟨k, h1, h2, hk⟩
      obtain ⟨sock, c, hcore, hoff⟩ := h.slice_iff.2 ⟨h1, h2⟩
      exact ⟨sock, c, k, hcore, hoff, hk⟩
  dsimp only
  rw [h.sliceIn_eq hexp, hslice]
  by_cases hpos : 0 < coresOf shapes n
  · rw [if_pos hpos]
    exact anyBit_iff ..
  · rw [if_neg hpos]
    refine iff_of_false (by simp) ?_
    rintro ⟨k, h1, h2, -⟩
    omega

/-- What `set_job_resources_node` (`v` is true) and `clear_job_resources_node` do: the bits of the
    node's cores become `v`, no other bit changes, and they succeed when there is such a core. -/
def Changes (job : JobResources) (shapes : List Shape) (cores : Bitstr) (n : Nat) (v : Bool)
    (out : Option (JobResources × Bool)) : Prop :=
  ∃ cores' ok, out = some ({ job with coreBitmap := some cores' }, ok) ∧ cores'.bits = cores.bits ∧
    (ok = true ↔ ∃ sock c, IsCore shapes n sock c) ∧
    ∀ k : Nat, ((∃ sock c, IsCore shapes n sock c ∧ getJobResourcesOffset job n sock c = some (k : Int)) →
        bitTest cores' k = v) ∧
      (¬(∃ sock c, IsCore shapes n sock c ∧ getJobResourcesOffset job n sock c = some (k : Int)) →
        bitTest cores' k = bitTest cores k)

theorem Addressed.changes (v : Bool) : Changes job shapes cores n v (changeJobResourcesNode job n v) := by
  obtain ⟨gs, hgs, hexp⟩ := h.groups_eq
  have hsame : { job with coreBitmap := some cores } = job := by
    rw [← h.bitmap]
  rw [changeJobResourcesNode, hgs, h.bitmap, bind_some, bind_some, h.sliceIn_eq hexp]
  by_cases hpos : 0 < coresOf shapes n
  · obtain ⟨cores', hcores', hfilled⟩ := changeBits_eq v (h.slice_le hpos)
    refine ⟨cores', true, ?_, hfilled.bits, iff_of_true rfl (h.hasCore_iff.2 hpos), fun k => ⟨?_, ?_⟩⟩
    · rw [if_pos hpos]
      dsimp only
      rw [hcores']
      rfl
    · intro hin
      rw [hfilled.test, if_pos (h.slice_iff.1 hin)]
    · intro hout
      rw [hfilled.test, if_neg fun hin => hout (h.slice_iff.2 hin)]
  · refine ⟨cores, false, ?_, rfl, iff_of_false (by decide) fun hin => hpos (h.hasCore_iff.1 hin),
      fun k => ⟨?_, fun _ => rfl⟩⟩
    · rw [if_neg hpos, hsame]
    · intro hin
      have := h.slice_iff.1 hin
      omega

theorem Addressed.counts (n : Nat) :
    ∃ ok, getJobResourcesCnt job n = some ((shapes[n]?).getD ⟨0, 0⟩, ok) ∧
      (0 < shapes.length → (ok = true ↔ n < shapes.length)) := by
  obtain ⟨unused, hgroups⟩ := h.groups
  have hexp := h.expand_groups unused
  rw [getJobResourcesCnt, hgroups, map_some]
  by_cases hempty : done = []
  · -- no nodes at all: the first empty entry, if there is one, is taken for a match
    subst hempty
    have hshapes : shapes = [] := h.expand.symm
    subst hshapes
    rw [nil_append]
    rcases cntLoop_noGroup unused n with hcnt | hcnt
    · rw [hcnt]
      exact ⟨false, rfl, fun h => absurd h (Nat.lt_irrefl 0)⟩
    · rw [hcnt]
      exact ⟨true, rfl, fun h => absurd h (Nat.lt_irrefl 0)⟩
  · have hcnt := cntLoop_eq (Nat.zero_le n)
      (by rw [hexp, Nat.zero_add]; exact h.length) (fun _ g hg => by
        obtain ⟨first, rest, rfl⟩ := exists_cons_of_ne_nil hempty
        obtain rfl : first = g := by simpa using hg
        exact h.pos first mem_cons_self)
    rw [hexp, Nat.sub_zero] at hcnt
    rw [show ((0 : Nat) : Int) - 1 = -1 from rfl] at hcnt
    rw [hcnt]
    cases hn : shapes[n]? with
    | none =>
      refine ⟨false, rfl, fun _ => iff_of_false (by decide) ?_⟩
      exact not_lt.2 (getElem?_eq_none_iff.1 hn)
    | some shape =>
      refine ⟨true, rfl, fun _ => iff_of_true rfl ?_⟩
      exact (List.getElem?_eq_some_iff.1 hn).1

end

/-- **Core addressing** in a job with the nodes `shapes` and the bitmap `cores`. -/
structure Addressing (job : JobResources) (shapes : List Shape) (cores : Bitstr) : Prop where
  inside : ∀ n sock c, IsCore shapes n sock c →
    ∃ k : Nat, k < totalCores shapes ∧ getJobResourcesOffset job n sock c = some (k : Int)
  outside : ∀ n sock c, ¬IsCore shapes n sock c → getJobResourcesOffset job n sock c = some (-1)
  onto : ∀ k < totalCores shapes, ∃ n sock c, IsCore shapes n sock c ∧
    getJobResourcesOffset job n sock c = some (k : Int)
  increasing : ∀ n sock c n' sock' c' (k k' : Int), IsCore shapes n sock c → IsCore shapes n' sock' c' →
    getJobResourcesOffset job n sock c = some k → getJobResourcesOffset job n' sock' c' = some k' →
    Before n sock c n' sock' c' → k < k'
  counts : ∀ n, ∃ ok, getJobResourcesCnt job n = some ((shapes[n]?).getD ⟨0, 0⟩, ok) ∧
    (0 < shapes.length → (ok = true ↔ n < shapes.length))
  node : ∀ n, ∃ any, getJobResourcesNode job n = some any ∧
    (any = true ↔ ∃ sock c k, IsCore shapes n sock c ∧
      getJobResourcesOffset job n sock c = some ((k : Nat) : Int) ∧ bitTest cores k = true)
  set : ∀ n, Changes job shapes cores n true (setJobResourcesNode job n)
  clear : ∀ n, Changes job shapes cores n false (clearJobResourcesNode job n)

theorem Addressed.addressing (h : Addressed job shapes cores done) : Addressing job shapes cores where
  inside n sock c hcore := by
    obtain ⟨shape, hn, hs, hc⟩ := hcore
    have hlt := mul_add_lt_count hs hc
    have hle := start_add_le_total hn
    exact ⟨_, by omega, h.offset_core hn hs hc⟩
  outside _ _ _ hnot := h.offset_other hnot
  onto _ hk := h.onto hk
  increasing _ _ _ _ _ _ _ _ hcore hcore' hoff hoff' hlt := h.increasing hcore hcore' hoff hoff' hlt
  counts := h.counts
  node := h.node
  set n := h.changes true
  clear n := h.changes false

def shapesOf (nodeBitmap : Bitstr) (nodeRecTable : Nat → NodeRecord) (fastSchedule : Bool) : List Shape :=
  jobShapes nodeBitmap (fun i => (nodeRecTable i).shape fastSchedule) 0 nodeBitmap.bits

theorem buildJobResources_success {r r' : JobResources} {nodeRecTable : Nat → NodeRecord}
    {fastSchedule : Bool} {nodeBitmap : Bitstr} (hnodes : r.nodeBitmap = some nodeBitmap)
    (hbuilt : buildJobResources r nodeRecTable fastSchedule = .success r') :
    ∃ s bitmap, buildLoop nodeBitmap (fun i => (nodeRecTable i).shape fastSchedule) nodeBitmap.bits 0
        ⟨replicate r.nhosts.toNat noGroup, 0, 0⟩ = some s ∧
      bitAlloc s.coreCnt = some bitmap ∧ r'.coreBitmap = some bitmap ∧ r'.nhosts = r.nhosts ∧
      r'.socketsPerNode = some (s.groups.map (·.sockets)) ∧
      r'.coresPerSocket = some (s.groups.map (·.cores)) ∧ r'.sockCoreRepCount = some (s.groups.map (·.reps)) := by
  rw [buildJobResources, hnodes] at hbuilt
  dsimp only at hbuilt
  split at hbuilt
  · cases hbuilt
  next s hs =>
    split at hbuilt
    · cases hbuilt
    next bitmap hbitmap =>
      cases hbuilt
      exact ⟨s, bitmap, hs, hbitmap, rfl, rfl, rfl, rfl, rfl⟩

theorem groups_of_map {job : JobResources} (hsockets : job.socketsPerNode = some (gs.map (·.sockets)))
    (hcores : job.coresPerSocket = some (gs.map (·.cores)))
    (hreps : job.sockCoreRepCount = some (gs.map (·.reps))) (hlen : job.nhosts.toNat = gs.length) :
    groups job = some gs := by
  have hall : ((gs.map (·.sockets)).zip ((gs.map (·.cores)).zip (gs.map (·.reps)))).map
      (fun e => (⟨⟨e.1, e.2.1⟩, e.2.2⟩ : Group)) = gs := by
    rw [List.zip_map', List.zip_map', List.map_map]
    exact List.map_id gs
  rw [groups, hsockets, hcores, hreps]
  dsimp only
  rw [hall, hlen, if_pos (le_refl _), take_length]

/-- **Core addressing is a bijection.**  Of a structure that `build_job_resources` has made, over nodes
    of whatever shapes, the core bitmap has one bit for each core of the nodes; and whichever of its
    bits are set, the valid triples are mapped onto the positions of the bitmap in lexicographic
    order, all others to -1, and the other functions find the same slices. -/
theorem core_addressing {r r' : JobResources} {nodeRecTable : Nat → NodeRecord} {fastSchedule : Bool}
    {nodeBitmap : Bitstr} (hnodes : r.nodeBitmap = some nodeBitmap)
    (hbuilt : buildJobResources r nodeRecTable fastSchedule = .success r') :
    (∃ cores, r'.coreBitmap = some cores ∧
      cores.bits = totalCores (shapesOf nodeBitmap nodeRecTable fastSchedule)) ∧
    ∀ cores : Bitstr, cores.bits = totalCores (shapesOf nodeBitmap nodeRecTable fastSchedule) →
      Addressing { r' with coreBitmap := some cores } (shapesOf nodeBitmap nodeRecTable fastSchedule)
        cores := by
  obtain ⟨s, bitmap, hloop, halloc, hbitmap, hnhosts, hsockets, hcores, hreps⟩ :=
    buildJobResources_success hnodes hbuilt
  have hlt := nodeBitmap.bits_lt
  have hinit : Started r.nhosts.toNat [] [] ⟨replicate r.nhosts.toNat noGroup, 0, 0⟩ :=
    ⟨rfl, rfl, zero_le _, rfl, fun _ hg => absurd hg not_mem_nil, rfl⟩
  obtain ⟨done, hdone⟩ := started_buildLoop hinit (by rw [length_nil]; omega) hloop
  rw [nil_append, ← shapesOf] at hdone
  have hcnt : (shapesOf nodeBitmap nodeRecTable fastSchedule).length < 2 ^ 32 := by
    have := length_jobShapes_le nodeBitmap (fun i => (nodeRecTable i).shape fastSchedule) 0 nodeBitmap.bits
    rw [shapesOf]
    omega
  refine ⟨⟨bitmap, hbitmap, (bits_bitAlloc halloc).trans hdone.coreCnt⟩, fun cores hbits => ?_⟩
  have hgroups : groups { r' with coreBitmap := some cores } = some s.groups :=
    groups_of_map hsockets hcores hreps (by rw [hdone.length_groups]; exact congrArg BitVec.toNat hnhosts)
  rw [hdone.groups] at hgroups
  have haddr : Addressed { r' with coreBitmap := some cores } _ cores done :=
    ⟨⟨_, hgroups⟩, hdone.pos, hdone.expand, hcnt, rfl, hbits⟩
  exact haddr.addressing

def mixedJob : JobResources :=
  { createJobResources with nhosts := 3, nodeBitmap := some (oneWord 4 0b1011) }

def mixedTable (i : Nat) : NodeRecord := if i < 2 then ⟨2, 4, 2, 4⟩ else ⟨1, 3, 1, 3⟩

theorem core_addressing_mixed : ∃ r', buildJobResources mixedJob mixedTable true = .success r' ∧
    ∀ cores : Bitstr, cores.bits = 19 →
      Addressing { r' with coreBitmap := some cores } [⟨2, 4⟩, ⟨2, 4⟩, ⟨1, 3⟩] cores := by
  obtain ⟨r', hbuilt⟩ : ∃ r', buildJobResources mixedJob mixedTable true = .success r' := ⟨_, rfl⟩
  have hshapes : shapesOf (oneWord 4 0b1011) mixedTable true = [⟨2, 4⟩, ⟨2, 4⟩, ⟨1, 3⟩] := by
    decide
  have h := (core_addressing rfl hbuilt).2
  rw [hshapes] at h
  exact ⟨r', hbuilt, h⟩

end Slurmpp.JobRes
