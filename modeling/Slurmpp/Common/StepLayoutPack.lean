/-
  Step layouts on the wire (`pack_slurm_step_layout`, `unpack_slurm_step_layout` and `slurm_step_layout_destroy` of
  `src/common/slurm_step_layout.c`).

  1. **There and back** — the fields are read into a record of zeros one by one (`fields`, `reader_fields`); exactly
     the receivable layouts survive.  `plane_size` is not sent.
  2. **The way out** — `node_cnt` is stored before there is a `tids` to walk: for a message that ends in between, the
     clean-up follows a `NULL` pointer (`CutShort`).
  3. The sizes of blocks come from the message too, and `xmalloc` ends the process when it cannot give one (`Greedy`).
-/
import Slurmpp.Lib.Filler
import Slurmpp.Common.Pack

namespace Slurmpp.StepLayoutPack

open Reader Filler Pack List

/-! ## The model -/

/-- `slurm_step_layout_t`; a string is the block of memory it is in. -/
structure StepLayout where
  frontEnd : Option (List Byte)
  nodeCnt : BitVec 32
  nodeList : Option (List Byte)
  planeSize : BitVec 16
  tasks : Option (List (BitVec 16))
  taskCnt : BitVec 32
  taskDist : BitVec 16
  tids : Option (List (Option (List (BitVec 32))))
deriving DecidableEq

/-- What `pack32_array(tids[k], tasks[k], buffer)` packs; `none` is a pointer that cannot be followed. -/
def nodeTids (l : StepLayout) (k : Nat) : Option (List (BitVec 32)) :=
  (l.tids.bind fun tids => tids[k]?).bind fun ids =>
    (l.tasks.bind fun tasks => tasks[k]?).bind fun n =>
      if n.toNat ≤ (ids.getD []).length then some ((ids.getD []).take n.toNat) else none

/-- The loop of `pack_slurm_step_layout` over the nodes `ks`. -/
def packTids (l : StepLayout) (ks : List Nat) (b : Buf) : Option Buf :=
  ks.foldlM (fun b k => (nodeTids l k).map fun ids => pack32Array ids b) b

def packSlurmStepLayout (layout : Option StepLayout) (version : BitVec 16) (b : Buf) : Option Buf :=
  if slurm23 ≤ version then
    match layout with
    | none => some (pack16 0 b)
    | some l =>
      (packstr (l.frontEnd.map cString) (pack16 1 b)).bind fun b =>
        (packstr (l.nodeList.map cString) b).bind fun b =>
          packTids l (range l.nodeCnt.toNat)
            (pack16 l.taskDist (pack32 l.taskCnt (pack32 l.nodeCnt b)))
  else some b

/-- `slurm_step_layout_destroy`; `none` when it follows a `NULL` pointer, or looks behind an array. -/
def slurmStepLayoutDestroy (l : StepLayout) : Option Unit :=
  (range l.nodeCnt.toNat).foldlM
    (fun _ k => (l.tids.bind fun tids => tids[k]?).map fun _ => ()) ()

/-- Fresh memory is all zeros. -/
def emptyLayout : StepLayout := ⟨none, 0, none, 0, none, 0, 0, none⟩

def sizeofLayout : Nat := 56

def unpackFrontEnd (room : Nat) : Filler StepLayout :=
  into (unpackmemXmalloc room) fun r l => { l with frontEnd := r.2 }

def unpackNodeList (room : Nat) : Filler StepLayout :=
  into (unpackmemXmalloc room) fun r l => { l with nodeList := r.2 }

def unpackNodeCnt : Filler StepLayout :=
  into unpack32 fun n l => { l with nodeCnt := BitVec.ofNat 32 n }

def unpackTaskCnt : Filler StepLayout :=
  into unpack32 fun n l => { l with taskCnt := BitVec.ofNat 32 n }

def unpackTaskDist : Filler StepLayout :=
  into unpack16 fun n l => { l with taskDist := BitVec.ofNat 16 n }

/-- `tasks` gets room for 32-bit numbers, though it holds 16-bit ones. -/
def allocTasks (room : Nat) : Filler StepLayout :=
  given fun l => into (xmalloc room (4 * l.nodeCnt.toNat)) fun _ l =>
    { l with tasks := some (replicate (2 * l.nodeCnt.toNat) 0) }

def allocTids (room : Nat) : Filler StepLayout :=
  given fun l => into (xmalloc room (8 * l.nodeCnt.toNat)) fun _ l =>
    { l with tids := some (replicate l.nodeCnt.toNat none) }

def putNode (k : Nat) (r : Nat × List Nat) (l : StepLayout) : StepLayout :=
  { l with
    tids := l.tids.map fun tids => tids.set k (some (r.2.map (BitVec.ofNat 32)))
    tasks := l.tasks.map fun tasks => tasks.set k (BitVec.ofNat 16 r.1) }

/-- `unpack32_array` that fails behind the count has already set its pointer; what is in the memory
    there is not looked at again. -/
def spoilNode (k : Nat) (i : Input) (l : StepLayout) : StepLayout :=
  match countAhead i with
  | some size => { l with tids := l.tids.map fun tids => tids.set k (some (replicate size 0)) }
  | none => l

def unpackNode (room k : Nat) : Filler StepLayout :=
  intoOr (unpack32Array room) (putNode k) (spoilNode k)

def unpackTids (room : Nat) : Filler StepLayout :=
  given fun l => loop (unpackNode room) 0 l.nodeCnt.toNat

/-- The layout up to `node_cnt`. -/
def unpackHead (room : Nat) : Filler StepLayout :=
  seq (unpackFrontEnd room) (seq (unpackNodeList room) unpackNodeCnt)

def unpackCounts : Filler StepLayout := seq unpackTaskCnt unpackTaskDist

def unpackNodes (room : Nat) : Filler StepLayout :=
  seq (allocTasks room) (seq (allocTids room) (unpackTids room))

def fields (room : Nat) : Filler StepLayout :=
  seq (unpackHead room) (seq unpackCounts (unpackNodes room))

/-- What `unpack_slurm_step_layout` returns, with `*layout` and the buffer after it; or how it ends. -/
inductive Unpacked
  | success (layout : Option StepLayout) (i : Input)
  | error (layout : Option StepLayout) (i : Input)
  | badPointer
  | abort
  | overread

def unpackError (stepLayout : Option StepLayout) (i : Input) : Unpacked :=
  match stepLayout.map slurmStepLayoutDestroy with
  | some none => .badPointer
  | _ => .error none i

/-- `unpack_slurm_step_layout`, where `layout` is `*layout` before. -/
def unpackSlurmStepLayout (room : Nat) (layout : Option StepLayout) (version : BitVec 16) (i : Input) : Unpacked :=
  if slurm23 ≤ version then
    match unpack16 i with
    | .ok flag j =>
      if flag = 0 then .success layout j
      else
        match seq (into (xmalloc room sizeofLayout) fun _ l => l) (fields room) emptyLayout j with
        | .done l k => .success (some l) k
        | .stopped l k => unpackError (some l) k
        | .abort => .abort
        | .overread => .overread
    | .error j => unpackError none j
    | .abort => .abort
    | .overread => .overread
  else unpackError none i

variable {room : Nat} {layout : Option StepLayout} {l : StepLayout} {version : BitVec 16} {b b' : Buf}
  {i j : Input} {k n : Nat} {ids : List (BitVec 32)} {vs : List (Nat × List Nat)}

/-! ## Packing -/

/-- The strings are strings, and every node has its task numbers. -/
structure Consistent (l : StepLayout) : Prop where
  frontEnd : ∀ s ∈ l.frontEnd, IsCString s
  nodeList : ∀ s ∈ l.nodeList, IsCString s
  tids : ∀ k < l.nodeCnt.toNat, (nodeTids l k).isSome = true

def allTids (l : StepLayout) : List (List (BitVec 32)) :=
  (range l.nodeCnt.toNat).map fun k => (nodeTids l k).getD []

/-- The values behind the flag. -/
def values (l : StepLayout) : List Value :=
  [.str .xmalloc (l.frontEnd.map cString), .str .xmalloc (l.nodeList.map cString), .u32 l.nodeCnt,
    .u32 l.taskCnt, .u16 l.taskDist] ++ (allTids l).map .u32s

theorem packTids_eq {ks : List Nat} (h : ∀ k ∈ ks, (nodeTids l k).isSome = true) (b : Buf) :
    packTids l ks b = packAll (ks.map fun k => .u32s ((nodeTids l k).getD [])) b := by
  induction ks generalizing b with
  | nil => rfl
  | cons k ks ih =>
    obtain ⟨ids, hids⟩ := Option.isSome_iff_exists.1 (h k mem_cons_self)
    have hrest := ih (forall_mem_cons.1 h).2 (pack32Array ids b)
    rw [packTids, foldlM_cons, hids]
    show packTids l ks (pack32Array ids b) = _
    rw [hrest, packAll, packAll, map_cons, foldlM_cons, hids]
    rfl

theorem pack_eq_packAll (h : Consistent l) (hv : slurm23 ≤ version) :
    packSlurmStepLayout (some l) version b = packAll (.u16 1 :: values l) b := by
  have htids : ∀ b, packTids l (range l.nodeCnt.toNat) b = _ :=
    packTids_eq fun k hk => h.tids k (mem_range.1 hk)
  rw [packSlurmStepLayout, if_pos hv, values, allTids, map_map]
  simp only [cons_append, nil_append, packAll_cons, pack, htids, Option.bind_some]
  rfl

theorem length_lt_of_nodeTids (h : nodeTids l k = some ids) : ids.length < 2 ^ 16 := by
  obtain ⟨ptr, -, h⟩ := Option.bind_eq_some_iff.1 h
  obtain ⟨n, -, h⟩ := Option.bind_eq_some_iff.1 h
  split_ifs at h with hle
  cases h
  rw [length_take]
  omega

theorem length_allTids : (allTids l).length = l.nodeCnt.toNat := by
  rw [allTids, length_map, length_range]

theorem length_lt_of_mem_allTids (h : ids ∈ allTids l) : ids.length < 2 ^ 16 := by
  obtain ⟨k, -, rfl⟩ := mem_map.1 h
  cases hk : nodeTids l k with
  | none => decide
  | some ids => exact length_lt_of_nodeTids hk

/-- What can be received: no `plane_size`, strings within their limit, and memory for the nodes. -/
structure Receivable (room : Nat) (l : StepLayout) : Prop where
  planeSize : l.planeSize = 0
  frontEnd : ∀ s ∈ l.frontEnd, s.length ≤ maxPackStrLen
  nodeList : ∀ s ∈ l.nodeList, s.length ≤ maxPackStrLen
  nodes : 8 * l.nodeCnt.toNat ≤ room

theorem fits_ids (hroom : maxPackStrLen ≤ room) (h : ids.length < 2 ^ 16) : (Value.u32s ids).Fits room := by
  have hmax : 16777216 ≤ room := hroom
  exact ⟨by omega, by omega⟩

theorem values_fit (hroom : maxPackStrLen ≤ room) (hc : Consistent l) (hr : Receivable room l) :
    ∀ val ∈ Value.u16 1 :: values l, val.Fits room := by
  intro val hval
  rcases mem_cons.1 hval with rfl | hval
  · exact trivial
  rcases mem_append.1 hval with hval | hval
  · simp only [mem_cons, not_mem_nil, or_false] at hval
    rcases hval with rfl | rfl | rfl | rfl | rfl
    · exact fits_cString hc.frontEnd hroom hr.frontEnd
    · exact fits_cString hc.nodeList hroom hr.nodeList
    · exact trivial
    · exact trivial
    · exact trivial
  · obtain ⟨ids, hids, rfl⟩ := mem_map.1 hval
    exact fits_ids hroom (length_lt_of_mem_allTids hids)

/-! ## What is read -/

/-- The layout with empty arrays. -/
def allocated (l : StepLayout) : StepLayout :=
  { l with
    tasks := some (replicate (2 * l.nodeCnt.toNat) 0)
    tids := some (replicate l.nodeCnt.toNat none) }

theorem reader_unpackNodes :
    (unpackNodes room).reader l =
      (xmalloc room (4 * l.nodeCnt.toNat)).bind fun _ => (xmalloc room (8 * l.nodeCnt.toNat)).bind fun _ =>
        ((unpack32Array room).times l.nodeCnt.toNat).bind fun vs => ret (stored putNode 0 vs (allocated l)) := by
  have hloop : ∀ n l, (loop (unpackNode room) 0 n).reader l =
      ((unpack32Array room).times n).bind fun vs => ret (stored putNode 0 vs l) :=
    fun n l => reader_loop (fun k s => reader_intoOr _ _ _) 0 n
  simp only [unpackNodes, allocTasks, allocTids, unpackTids, reader_seq, reader_given, reader_into, hloop,
    bind_assoc, ret_bind]
  rfl

/-- The layout before the arrays. -/
def counted (frontEnd nodeList : Option (List Byte)) (nodeCnt taskCnt taskDist : Nat) : StepLayout :=
  ⟨frontEnd, BitVec.ofNat 32 nodeCnt, nodeList, 0, none, BitVec.ofNat 32 taskCnt, BitVec.ofNat 16 taskDist, none⟩

theorem reader_fields :
    (fields room).reader emptyLayout =
      (unpackmemXmalloc room).bind fun a => (unpackmemXmalloc room).bind fun c => unpack32.bind fun n =>
        unpack32.bind fun t => unpack16.bind fun d => (unpackNodes room).reader (counted a.2 c.2 n t d) := by
  simp only [fields, unpackHead, unpackCounts, unpackFrontEnd, unpackNodeList, unpackNodeCnt,
    unpackTaskCnt, unpackTaskDist, reader_seq, reader_into, bind_assoc, ret_bind]
  rfl

theorem stored_putNode (vs : List (Nat × List Nat)) (k : Nat) (l : StepLayout) :
    stored putNode k vs l =
      { l with
        tids := l.tids.map (stored (fun k v s => s.set k v) k
          (vs.map fun r => some (r.2.map (BitVec.ofNat 32))))
        tasks := l.tasks.map (stored (fun k v s => s.set k v) k (vs.map fun r => BitVec.ofNat 16 r.1)) } := by
  induction vs generalizing k l with
  | nil =>
    obtain ⟨-, -, -, -, tasks, -, -, tids⟩ := l
    cases tasks <;> cases tids <;> rfl
  | cons r vs ih =>
    rw [stored, ih]
    obtain ⟨-, -, -, -, tasks, -, -, tids⟩ := l
    cases tasks <;> cases tids <;> rfl

theorem node_stored (hlen : vs.length = l.nodeCnt.toNat) {r : Nat × List Nat} (hr : vs[k]? = some r) :
    ((stored putNode 0 vs (allocated l)).tids.bind fun tids => tids[k]?) =
        some (some (r.2.map (BitVec.ofNat 32))) ∧
    ((stored putNode 0 vs (allocated l)).tasks.bind fun tasks => tasks[k]?) = some (BitVec.ofNat 16 r.1) := by
  have hk : k < vs.length := (List.getElem?_eq_some_iff.1 hr).1
  rw [stored_putNode]
  constructor
  · show (stored _ 0 _ (replicate l.nodeCnt.toNat none))[k]? = _
    rw [getElem?_stored_set _ _ _ _ (by simp [hlen]), if_neg (Nat.not_lt_zero k), Nat.sub_zero,
      getElem?_append_left (by simpa using hk), getElem?_map, hr]
    rfl
  · show (stored _ 0 _ (replicate (2 * l.nodeCnt.toNat) 0))[k]? = _
    rw [getElem?_stored_set _ _ _ _ (by simp [hlen]; omega), if_neg (Nat.not_lt_zero k), Nat.sub_zero,
      getElem?_append_left (by simpa using hk), getElem?_map, hr]
    rfl

/-- Every node has its array of task numbers, and its count is the length of the array. -/
def Complete (l : StepLayout) : Prop :=
  ∀ k < l.nodeCnt.toNat, ∃ ids : List (BitVec 32),
    (l.tids.bind fun tids => tids[k]?) = some (some ids) ∧
    (l.tasks.bind fun tasks => tasks[k]?) = some (BitVec.ofNat 16 ids.length)

theorem complete_stored (hlen : vs.length = l.nodeCnt.toNat) (hvs : ∀ r ∈ vs, r.2.length = r.1) :
    Complete (stored putNode 0 vs (allocated l)) := by
  intro k hk
  have hcnt : (stored putNode 0 vs (allocated l)).nodeCnt = l.nodeCnt := by
    rw [stored_putNode]
    rfl
  rw [hcnt, ← hlen] at hk
  have hr := getElem?_eq_getElem hk
  obtain ⟨h1, h2⟩ := node_stored hlen hr
  refine ⟨_, h1, ?_⟩
  rw [h2, length_map, hvs _ (getElem_mem hk)]

/-- **Whatever is received is complete, and could be received.** -/
theorem of_fields_done (h : fields room emptyLayout i = .done l j) : Complete l ∧ Receivable room l := by
  have h := reader_eq_ok.2 h
  rw [reader_fields] at h
  obtain ⟨a, i1, ha, h⟩ := bind_eq_ok h
  obtain ⟨c, i2, hc, h⟩ := bind_eq_ok h
  obtain ⟨n, i3, -, h⟩ := bind_eq_ok h
  obtain ⟨t, i4, -, h⟩ := bind_eq_ok h
  obtain ⟨d, i₅, -, h⟩ := bind_eq_ok h
  rw [reader_unpackNodes] at h
  obtain ⟨-, i₆, -, h⟩ := bind_eq_ok h
  obtain ⟨_, i₇, hmem, h⟩ := bind_eq_ok h
  obtain ⟨vs, i₈, hvs, h⟩ := bind_eq_ok h
  obtain ⟨rfl, -⟩ := Outcome.ok.inj h
  obtain ⟨hlen, hall⟩ := times_eq_ok (fun _ _ _ h => unpack32Array_length h) hvs
  refine ⟨complete_stored hlen hall, ?_⟩
  rw [stored_putNode]
  constructor
  · rfl
  · exact unpackBlock_length_le ha
  · exact unpackBlock_length_le hc
  · unfold xmalloc at hmem
    split at hmem
    · assumption
    · simp [die] at hmem

/-! ## There and back -/

/-- The layouts agree in all that a reader of them looks at. -/
structure Same (l l' : StepLayout) : Prop where
  frontEnd : l'.frontEnd = l.frontEnd
  nodeCnt : l'.nodeCnt = l.nodeCnt
  nodeList : l'.nodeList = l.nodeList
  planeSize : l'.planeSize = l.planeSize
  taskCnt : l'.taskCnt = l.taskCnt
  taskDist : l'.taskDist = l.taskDist
  tids : ∀ k < l.nodeCnt.toNat, nodeTids l' k = nodeTids l k

/-- An array of task numbers as `unpack32_array` returns it. -/
def asRead (ids : List (BitVec 32)) : Nat × List Nat := (ids.length, ids.map BitVec.toNat)

/-- What is received for a layout. -/
def received (l : StepLayout) : StepLayout :=
  stored putNode 0 ((allTids l).map asRead)
    (allocated (counted l.frontEnd l.nodeList l.nodeCnt.toNat l.taskCnt.toNat l.taskDist.toNat))

theorem nodeTids_stored {m : StepLayout} (hlen : vs.length = m.nodeCnt.toNat)
    (hr : vs[k]? = some (asRead ids)) (hids : ids.length < 2 ^ 16) :
    nodeTids (stored putNode 0 vs (allocated m)) k = some ids := by
  obtain ⟨h1, h2⟩ := node_stored hlen hr
  have hback : (ids.map BitVec.toNat).map (BitVec.ofNat 32) = ids := by
    rw [map_map]
    conv_rhs => rw [← map_id ids]
    exact map_congr_left fun x _ => by simp
  have hcount : (BitVec.ofNat 16 ids.length).toNat = ids.length := by
    rw [BitVec.toNat_ofNat, Nat.mod_eq_of_lt hids]
  rw [nodeTids, h1, h2]
  show (if (BitVec.ofNat 16 ids.length).toNat ≤ ((ids.map BitVec.toNat).map (BitVec.ofNat 32)).length then
    some (((ids.map BitVec.toNat).map (BitVec.ofNat 32)).take (BitVec.ofNat 16 ids.length).toNat)
      else none) = _
  rw [hback, hcount, if_pos le_rfl, take_length]

theorem same_received (hc : Consistent l) (hplane : l.planeSize = 0) : Same l (received l) := by
  have hback : ∀ {w : Nat} (x : BitVec w), BitVec.ofNat w x.toNat = x := by simp
  have hcnt : BitVec.ofNat 32 l.nodeCnt.toNat = l.nodeCnt := hback l.nodeCnt
  have hlen : ((allTids l).map asRead).length = (counted l.frontEnd l.nodeList l.nodeCnt.toNat
      l.taskCnt.toNat l.taskDist.toNat).nodeCnt.toNat := by
    rw [length_map, length_allTids]
    show _ = (BitVec.ofNat 32 l.nodeCnt.toNat).toNat
    rw [hcnt]
  have hframe := stored_putNode ((allTids l).map asRead) 0
    (allocated (counted l.frontEnd l.nodeList l.nodeCnt.toNat l.taskCnt.toNat l.taskDist.toNat))
  constructor
  · rw [received, hframe]
    rfl
  · rw [received, hframe]
    exact hcnt
  · rw [received, hframe]
    rfl
  · rw [received, hframe, hplane]
    rfl
  · rw [received, hframe]
    exact hback l.taskCnt
  · rw [received, hframe]
    exact hback l.taskDist
  · intro k hk
    obtain ⟨ids, hids⟩ := Option.isSome_iff_exists.1 (hc.tids k hk)
    rw [hids]
    refine nodeTids_stored hlen ?_ (length_lt_of_nodeTids hids)
    rw [getElem?_map, allTids, getElem?_map, getElem?_range hk]
    show some (asRead ((nodeTids l k).getD [])) = _
    rw [hids]
    rfl

theorem reads_fields (hroom : maxPackStrLen ≤ room) (hc : Consistent l) (hr : Receivable room l) :
    Reads ((fields room).reader emptyLayout) ((values l).flatMap wire) (received l) := by
  have hfit := values_fit hroom hc hr
  have hnodes := hr.nodes
  have hwire : (values l).flatMap wire = wire (.str .xmalloc (l.frontEnd.map cString)) ++
      (wire (.str .xmalloc (l.nodeList.map cString)) ++ (beBytes 4 l.nodeCnt.toNat ++
        (beBytes 4 l.taskCnt.toNat ++ (beBytes 2 l.taskDist.toNat ++
          (allTids l).flatMap fun ids => wire (.u32s ids))))) := by
    rw [values, flatMap_append, flatMap_map]
    simp only [flatMap_cons, flatMap_nil, append_nil, append_assoc, wire]
  rw [hwire, reader_fields]
  refine (takes_cString hc.frontEnd (hfit _ (by simp [values]))).reads.bind ?_
  refine (takes_cString hc.nodeList (hfit _ (by simp [values]))).reads.bind ?_
  refine (reads_unpackFixed l.nodeCnt.isLt).bind ?_
  refine (reads_unpackFixed l.taskCnt.isLt).bind ?_
  refine (reads_unpackFixed l.taskDist.isLt).bind ?_
  have hcnt : (counted l.frontEnd l.nodeList l.nodeCnt.toNat l.taskCnt.toNat
      l.taskDist.toNat).nodeCnt.toNat = l.nodeCnt.toNat := by
    simp [counted]
  rw [reader_unpackNodes, hcnt, xmalloc_eq (by omega), xmalloc_eq hnodes, ret_bind, ret_bind]
  have hloop : Reads ((unpack32Array room).times (allTids l).length)
      ((allTids l).flatMap fun ids => wire (.u32s ids)) ((allTids l).map asRead) :=
    (takes_times fun ids hids =>
      takes_unpack32Array (fits_ids hroom (length_lt_of_mem_allTids hids))).reads
  rw [length_allTids] at hloop
  exact hloop.map

/-! ## The clean-up -/

theorem destroy_eq_some (h : ∀ k < l.nodeCnt.toNat, ∃ p, (l.tids.bind fun tids => tids[k]?) = some p) :
    slurmStepLayoutDestroy l = some () := by
  have hloop : ∀ ks : List Nat, (∀ k ∈ ks, k < l.nodeCnt.toNat) → ks.foldlM
      (fun _ k => (l.tids.bind fun tids => tids[k]?).map fun _ => ()) () = some () := by
    intro ks hks
    induction ks with
    | nil => rfl
    | cons k ks ih =>
      obtain ⟨p, hp⟩ := h k (hks k mem_cons_self)
      rw [foldlM_cons, hp]
      exact ih (forall_mem_cons.1 hks).2
  exact hloop _ fun k hk => mem_range.1 hk

theorem destroy_eq_none (hcnt : l.nodeCnt ≠ 0) (htids : l.tids = none) : slurmStepLayoutDestroy l = none := by
  have hpos : l.nodeCnt.toNat ≠ 0 := fun h => hcnt (BitVec.eq_of_toNat_eq h)
  obtain ⟨n, hn⟩ := Nat.exists_eq_succ_of_ne_zero hpos
  rw [slurmStepLayoutDestroy, hn, range_succ_eq_map, foldlM_cons, htids]
  rfl

def HasTids (l : StepLayout) : Prop := ∃ tids, l.tids = some tids ∧ l.nodeCnt.toNat ≤ tids.length

theorem HasTids.destroy (h : HasTids l) : slurmStepLayoutDestroy l = some () := by
  obtain ⟨tids, htids, hlen⟩ := h
  refine destroy_eq_some fun k hk => ?_
  rw [htids]
  exact ⟨_, getElem?_eq_getElem (hk.trans_le hlen)⟩

theorem leaves_head : Leaves (unpackHead room) (fun l => l.nodeCnt = 0) fun l => l.nodeCnt = 0 := by
  have hfront : Goes (unpackFrontEnd room) (fun l => l.nodeCnt = 0) fun l => l.nodeCnt = 0 :=
    goes_into fun _ _ h => h
  have hlist : Goes (unpackNodeList room) (fun l => l.nodeCnt = 0) fun l => l.nodeCnt = 0 :=
    goes_into fun _ _ h => h
  exact leaves_into.seq hfront (leaves_into.seq hlist leaves_into)

theorem leaves_counts : Leaves unpackCounts (fun l => l.tids = none ∧ l.nodeCnt = BitVec.ofNat 32 n)
    fun l => l.tids = none ∧ l.nodeCnt = BitVec.ofNat 32 n := by
  have hcnt : Goes unpackTaskCnt (fun l => l.tids = none ∧ l.nodeCnt = BitVec.ofNat 32 n)
      fun l => l.tids = none ∧ l.nodeCnt = BitVec.ofNat 32 n := goes_into fun _ _ h => h
  exact leaves_into.seq hcnt leaves_into

theorem xmalloc_ne_error (i j : Input) : xmalloc room n i ≠ .error j := by
  unfold xmalloc
  split_ifs
  · simp [ret]
  · simp [die]

theorem leaves_nodes : Leaves (unpackNodes room) (fun _ => True) HasTids := by
  have hset : ∀ (l : StepLayout) (f : List (Option (List (BitVec 32))) → List (Option (List (BitVec 32)))),
      (∀ tids, (f tids).length = tids.length) → HasTids l → HasTids { l with tids := l.tids.map f } := by
    rintro l f hf ⟨tids, htids, hlen⟩
    refine ⟨f tids, ?_, ?_⟩
    · show l.tids.map f = _
      rw [htids]
      rfl
    · rw [hf]
      exact hlen
  have hturn : ∀ k, Goes (unpackNode room k) HasTids HasTids := by
    intro k
    refine goes_intoOr fun r l hl => ?_
    exact hset l (fun tids => tids.set k _) (fun tids => length_set) hl
  have hstop : ∀ k, Leaves (unpackNode room k) HasTids HasTids := by
    intro k
    refine leaves_intoOr fun i l hl => ?_
    unfold spoilNode
    split
    · exact hset l (fun tids => tids.set k _) (fun tids => length_set) hl
    · exact hl
  have htasks : Leaves (allocTasks room) (fun _ => True) HasTids :=
    Leaves.given fun _ => leaves_of_reads xmalloc_ne_error
  have htids : Leaves (allocTids room) (fun _ => True) HasTids :=
    Leaves.given fun _ => leaves_of_reads xmalloc_ne_error
  have hgo : Goes (allocTids room) (fun _ => True) HasTids := by
    refine Goes.given fun _ => goes_intoOr fun _ l _ => ?_
    exact ⟨_, rfl, by rw [length_replicate]⟩
  apply htasks.seq (fun _ _ _ _ _ _ => trivial)
  apply htids.seq hgo
  exact Leaves.given fun l => Leaves.loop hturn hstop 0 l.nodeCnt.toNat

/-! ## Untrusted bytes -/

def SendsNull (i : Input) : Prop := ∃ j, unpack16 i = .ok 0 j

/-- The number of nodes of the layout that comes next. -/
def nodeCount (room : Nat) : Reader Nat :=
  (unpackmemXmalloc room).bind fun _ => (unpackmemXmalloc room).bind fun _ => unpack32

/-- The same, up to where the arrays begin. -/
def nodeCountThen (room : Nat) : Reader Nat :=
  (nodeCount room).bind fun n => unpack32.bind fun _ => unpack16.bind fun _ => ret n

/-- There are nodes, and less than the two numbers that come before their arrays. -/
def EndsInCounts (room : Nat) (i : Input) : Prop :=
  ∃ n j, nodeCount room i = .ok n j ∧ n ≠ 0 ∧ j.data.length < j.pos + 6

/-- The number of nodes, or that of the tasks of one of them, is too large for the memory. -/
def Exceeds (room : Nat) (i : Input) : Prop :=
  ∃ n j, nodeCountThen room i = .ok n j ∧ (room < 8 * n ∨ ∃ m < n, ∃ vs k,
    (unpack32Array room).times m j = .ok vs k ∧ ∃ size ∈ countAhead k, room < size * 4)

/-- A layout that is **cut short** between `node_cnt` and the end of `task_dist`. -/
def CutShort (room : Nat) (i : Input) : Prop :=
  ∃ flag j, unpack16 i = .ok flag j ∧ flag ≠ 0 ∧ EndsInCounts room j

/-- A layout that is **greedy**. -/
def Greedy (room : Nat) (i : Input) : Prop :=
  ∃ flag j, unpack16 i = .ok flag j ∧ flag ≠ 0 ∧ Exceeds room j

theorem toNat_of_unpack32 (h : unpack32 i = .ok n j) : (BitVec.ofNat 32 n).toNat = n := by
  have hlt : n < 2 ^ 32 := unpackFixed_lt h
  rw [BitVec.toNat_ofNat, Nat.mod_eq_of_lt hlt]

theorem safe_unpackmemXmalloc (hroom : maxPackStrLen ≤ room) (hpos : i.pos ≤ i.data.length) :
    Safe (unpackmemXmalloc room) i :=
  safe_unpackBlockCall hpos hroom .xmalloc

theorem safe_nodeCount (hroom : maxPackStrLen ≤ room) (hpos : i.pos ≤ i.data.length) : Safe (nodeCount room) i := by
  refine (safe_unpackmemXmalloc hroom hpos).bind fun _ _ _ hj => ?_
  refine (safe_unpackmemXmalloc hroom hj.pos_le_self).bind fun _ _ _ hk => ?_
  exact safe_unpackFixed hk.pos_le_self

theorem reader_unpackHead :
    (unpackHead room).reader emptyLayout =
      (unpackmemXmalloc room).bind fun a => (unpackmemXmalloc room).bind fun c => unpack32.bind fun n =>
        ret { emptyLayout with frontEnd := a.2, nodeList := c.2, nodeCnt := BitVec.ofNat 32 n } := by
  simp only [unpackHead, unpackFrontEnd, unpackNodeList, unpackNodeCnt, reader_seq, reader_into, bind_assoc, ret_bind]

theorem head_done (h : nodeCount room i = .ok n j) :
    ∃ l, unpackHead room emptyLayout i = .done l j ∧ l.tids = none ∧ l.nodeCnt = BitVec.ofNat 32 n := by
  obtain ⟨a, i1, ha, h⟩ := bind_eq_ok h
  obtain ⟨c, i2, hc, h⟩ := bind_eq_ok h
  refine ⟨{ emptyLayout with frontEnd := a.2, nodeList := c.2, nodeCnt := BitVec.ofNat 32 n },
    reader_eq_ok.1 ?_, rfl, rfl⟩
  rw [reader_unpackHead, bind_of_ok ha, bind_of_ok hc, bind_of_ok h]
  rfl

theorem of_head_done (h : unpackHead room emptyLayout i = .done l j) :
    ∃ n, nodeCount room i = .ok n j ∧ l.tids = none ∧ l.nodeCnt = BitVec.ofNat 32 n := by
  have h := reader_eq_ok.2 h
  rw [reader_unpackHead] at h
  obtain ⟨a, i1, ha, h⟩ := bind_eq_ok h
  obtain ⟨c, i2, hc, h⟩ := bind_eq_ok h
  obtain ⟨n, i3, hn, h⟩ := bind_eq_ok h
  obtain ⟨rfl, rfl⟩ := Outcome.ok.inj h
  refine ⟨n, ?_, rfl, rfl⟩
  rw [nodeCount, bind_of_ok ha, bind_of_ok hc, hn]

theorem counts_stopped_iff (hpos : i.pos ≤ i.data.length) :
    (∃ m j, unpackCounts l i = .stopped m j) ↔ i.data.length < i.pos + 6 := by
  have hreader : unpackCounts.reader l = unpack32.bind fun t => unpack16.bind fun d =>
      ret { l with taskCnt := BitVec.ofNat 32 t, taskDist := BitVec.ofNat 16 d } := by
    simp only [unpackCounts, unpackTaskCnt, unpackTaskDist, reader_seq, reader_into, bind_assoc, ret_bind]
  have hstop : (∃ m j, unpackCounts l i = .stopped m j) ↔ ∃ j, unpackCounts.reader l i = .error j := by
    rw [exists_comm]
    exact exists_congr fun j => reader_eq_error.symm
  rw [hstop, hreader]
  by_cases hfour : i.pos + 4 ≤ i.data.length
  · obtain ⟨t, ht⟩ := unpackFixed_ok hpos hfour
    have hpos' : (i.advance 4).pos ≤ (i.advance 4).data.length := hfour
    rw [unpack32, bind_of_ok ht]
    by_cases hsix : i.pos + 6 ≤ i.data.length
    · obtain ⟨d, hd⟩ := unpackFixed_ok hpos' (show i.pos + 4 + 2 ≤ _ from hsix)
      rw [unpack16, bind_of_ok hd]
      constructor
      · rintro ⟨j, hj⟩
        simp [ret] at hj
      · intro hlt
        omega
    · have herr := unpackFixed_error hpos' (show i.data.length < i.pos + 4 + 2 by omega)
      rw [unpack16, Reader.bind, herr]
      exact ⟨fun _ => by omega, fun _ => ⟨_, rfl⟩⟩
  · have herr := unpackFixed_error hpos (n := 4) (by omega)
    rw [unpack32, Reader.bind, herr]
    exact ⟨fun _ => by omega, fun _ => ⟨_, rfl⟩⟩

/-- **The clean-up follows a bad pointer exactly when the layout ends in its counts.** -/
theorem fields_stopped_iff (hroom : maxPackStrLen ≤ room) (hpos : i.pos ≤ i.data.length) :
    (∃ l j, fields room emptyLayout i = .stopped l j ∧ slurmStepLayoutDestroy l = none) ↔ EndsInCounts room i := by
  constructor
  · rintro ⟨l, j, hstop, hnone⟩
    rcases seq_stopped hstop with hhead | ⟨m, k, hhead, hrest⟩
    · -- nothing has been counted yet
      have hzero : l.nodeCnt = 0 := leaves_head _ _ _ _ rfl hhead
      rw [destroy_eq_some (by simp [hzero])] at hnone
      cases hnone
    obtain ⟨n, hn, htids, hcnt⟩ := of_head_done hhead
    have hk := ((safe_nodeCount hroom hpos).later hn).pos_le_self
    rcases seq_stopped hrest with hcounts | ⟨m', k', hcounts, hnodes⟩
    · refine ⟨n, k, hn, ?_, (counts_stopped_iff hk).1 ⟨l, j, hcounts⟩⟩
      rintro rfl
      obtain ⟨-, hzero⟩ := leaves_counts _ _ _ _ ⟨htids, hcnt⟩ hcounts
      rw [destroy_eq_some (by simp [hzero])] at hnone
      cases hnone
    · have hhas := leaves_nodes _ _ _ _ trivial hnodes
      rw [hhas.destroy] at hnone
      cases hnone
  · rintro ⟨n, j, hn, hne, hshort⟩
    have hj := ((safe_nodeCount hroom hpos).later hn).pos_le_self
    obtain ⟨m, hhead, htids, hcnt⟩ := head_done hn
    obtain ⟨l, k, hcounts⟩ := (counts_stopped_iff hj).2 hshort
    obtain ⟨hnone, hsame⟩ := leaves_counts _ _ _ _ ⟨htids, hcnt⟩ hcounts
    have hback : (BitVec.ofNat 32 n).toNat = n := by
      obtain ⟨a, i1, -, h⟩ := bind_eq_ok hn
      obtain ⟨c, i2, -, h⟩ := bind_eq_ok h
      exact toNat_of_unpack32 h
    refine ⟨l, k, ?_, destroy_eq_none ?_ hnone⟩
    · rw [fields, seq, hhead]
      dsimp only
      rw [seq, hcounts]
    · rw [hsame]
      intro hzero
      have := congrArg BitVec.toNat hzero
      rw [hback] at this
      exact hne this

theorem unpack32Array_abort {size : Nat} (hsize : size ∈ countAhead i) (hroom : room < size * 4) :
    unpack32Array room i = .abort := by
  unfold countAhead at hsize
  split at hsize
  · rename_i size' j hj
    cases hsize
    rw [unpack32Array, bind_of_ok hj, Reader.bind, xmalloc, if_neg (by omega)]
    rfl
  · cases hsize

theorem reader_fields_of_count (h : nodeCountThen room i = .ok n j) :
    ∃ l, l.nodeCnt.toNat = n ∧ (fields room).reader emptyLayout i = (unpackNodes room).reader l j := by
  obtain ⟨n', i3, hn, h⟩ := bind_eq_ok h
  obtain ⟨a, i1, ha, hn⟩ := bind_eq_ok hn
  obtain ⟨c, i2, hc, hn⟩ := bind_eq_ok hn
  obtain ⟨t, i4, ht, h⟩ := bind_eq_ok h
  obtain ⟨d, i₅, hd, h⟩ := bind_eq_ok h
  obtain ⟨rfl, rfl⟩ := Outcome.ok.inj h
  refine ⟨counted a.2 c.2 n' t d, ?_, ?_⟩
  · exact toNat_of_unpack32 hn
  · rw [reader_fields, bind_of_ok ha, bind_of_ok hc, bind_of_ok hn, bind_of_ok ht, bind_of_ok hd]

/-- **Too large a number ends the process.** -/
theorem Exceeds.fields_abort (h : Exceeds room i) : fields room emptyLayout i = .abort := by
  obtain ⟨n, j, hn, hlarge⟩ := h
  obtain ⟨l, hl, hfields⟩ := reader_fields_of_count hn
  rw [← reader_eq_abort, hfields, reader_unpackNodes, hl]
  by_cases hfour : 4 * n ≤ room
  · rw [xmalloc_eq hfour, ret_bind]
    by_cases height : 8 * n ≤ room
    · rw [xmalloc_eq height, ret_bind]
      obtain hlarge | ⟨m, hm, vs, k, hvs, size, hsize, hlarge⟩ := hlarge
      · omega
      · rw [Reader.bind, times_abort hvs hm (unpack32Array_abort hsize hlarge)]
    · rw [Reader.bind, xmalloc, if_neg height]
      rfl
  · rw [Reader.bind, xmalloc, if_neg hfour]
    rfl

section

variable (hroom : maxPackStrLen ≤ room)
include hroom

/-- **Otherwise the fields are read, or an error is met, within the buffer.** -/
theorem safe_fields (hpos : i.pos ≤ i.data.length) (h : ¬Exceeds room i) :
    Safe ((fields room).reader emptyLayout) i := by
  rw [reader_fields]
  refine (safe_unpackmemXmalloc hroom hpos).bind fun a i1 ha h1 => ?_
  refine (safe_unpackmemXmalloc hroom h1.pos_le_self).bind fun c i2 hc h2 => ?_
  refine (safe_unpackFixed h2.pos_le_self).bind fun n i3 hn h3 => ?_
  refine (safe_unpackFixed h3.pos_le_self).bind fun t i4 ht h4 => ?_
  refine (safe_unpackFixed h4.pos_le_self).bind fun d i₅ hd h₅ => ?_
  have hcount : nodeCountThen room i = .ok n i₅ := by
    have hn' : nodeCount room i = .ok n i3 := by
      rw [nodeCount, bind_of_ok ha, bind_of_ok hc]
      exact hn
    rw [nodeCountThen, bind_of_ok hn', unpack32, bind_of_ok ht, unpack16, bind_of_ok hd]
    rfl
  have hcnt : (counted a.2 c.2 n t d).nodeCnt.toNat = n := toNat_of_unpack32 hn
  have hnodes : 8 * n ≤ room := by
    by_contra hlarge
    exact h ⟨n, i₅, hcount, .inl (by omega)⟩
  rw [reader_unpackNodes, hcnt, xmalloc_eq (by omega), xmalloc_eq hnodes, ret_bind, ret_bind]
  apply Safe.map
  refine safe_times_turns h₅.pos_le_self fun m hm vs k hk hik => ?_
  refine (safe_unpackFixed hik.pos_le_self).bind fun size k' hsize hk' => ?_
  have hfew : size * 4 ≤ room := by
    by_contra hlarge
    exact h ⟨n, i₅, hcount, .inr ⟨m, hm, vs, k, hk, size, countAhead_eq hsize, by omega⟩⟩
  rw [xmalloc_eq hfew, ret_bind]
  exact (safe_times hk'.pos_le_self fun _ h => safe_unpackFixed h.pos_le_self).map

/-! ## The whole function -/

omit hroom in
theorem unpack_null (hv : slurm23 ≤ version) (h : unpack16 i = .ok 0 j) :
    unpackSlurmStepLayout room layout version i = .success layout j := by
  rw [unpackSlurmStepLayout, if_pos hv, h]
  rfl

theorem unpack_layout (hv : slurm23 ≤ version) {flag : Nat} (h : unpack16 i = .ok flag j) (hflag : flag ≠ 0) :
    unpackSlurmStepLayout room layout version i =
      match fields room emptyLayout j with
      | .done l k => .success (some l) k
      | .stopped l k => unpackError (some l) k
      | .abort => .abort
      | .overread => .overread := by
  have hsize : sizeofLayout ≤ room := le_trans (by decide) hroom
  rw [unpackSlurmStepLayout, if_pos hv, h]
  dsimp only
  rw [if_neg hflag, seq, into, intoOr, xmalloc_eq hsize]
  rfl

/-- What a call may end with: `SLURM_SUCCESS` with the complete layout that was sent, `NULL` if it was
    that, or `SLURM_ERROR` with `NULL`. -/
def Proper (i : Input) : Unpacked → Prop
  | .success layout _ => (SendsNull i → layout = none) ∧ (¬SendsNull i → ∃ l, layout = some l ∧ Complete l)
  | .error layout _ => layout = none
  | _ => False

/-- **Any bytes.**  A call ends properly unless it leaves an old pointer in place, the layout is cut
    short, or it asks for too much. -/
theorem proper_unpack_iff (hpos : i.pos ≤ i.data.length) :
    Proper i (unpackSlurmStepLayout room layout version i) ↔
      (slurm23 ≤ version → (SendsNull i → layout = none) ∧ ¬CutShort room i ∧ ¬Greedy room i) := by
  by_cases hv : slurm23 ≤ version
  swap
  · rw [unpackSlurmStepLayout, if_neg hv]
    exact ⟨fun _ h => absurd h hv, fun _ => rfl⟩
  simp only [hv, true_imp_iff]
  obtain ⟨j, hj, herr | ⟨flag, hflag⟩⟩ := safe_unpackFixed hpos
  · -- not even the flag is there
    have hnot : ∀ flag k, unpack16 i ≠ .ok flag k := by
      intro flag k h
      cases herr.symm.trans h
    rw [unpackSlurmStepLayout, if_pos hv, unpack16, herr]
    refine iff_of_true rfl ⟨?_, ?_, ?_⟩
    · rintro ⟨k, hk⟩
      exact absurd hk (hnot 0 k)
    · rintro ⟨flag, k, hk, -⟩
      exact hnot flag k hk
    · rintro ⟨flag, k, hk, -⟩
      exact hnot flag k hk
  have hflag : unpack16 i = .ok flag j := hflag
  have hunique : ∀ {flag' k}, unpack16 i = .ok flag' k → flag' = flag ∧ k = j := by
    intro flag' k hk
    exact Outcome.ok.inj (hk.symm.trans hflag)
  by_cases hzero : flag = 0
  · subst hzero
    rw [unpack_null hv hflag]
    have hnull : SendsNull i := ⟨j, hflag⟩
    constructor
    · rintro ⟨h, -⟩
      refine ⟨h, ?_, ?_⟩
      · rintro ⟨flag, k, hk, hne, -⟩
        exact hne (hunique hk).1
      · rintro ⟨flag, k, hk, hne, -⟩
        exact hne (hunique hk).1
    · rintro ⟨h, -, -⟩
      exact ⟨h, fun hn => absurd hnull hn⟩
  have hnull : ¬SendsNull i := by
    rintro ⟨k, hk⟩
    exact hzero (hunique hk).1.symm
  have hcut : CutShort room i ↔ EndsInCounts room j := by
    constructor
    · rintro ⟨flag', k, hk, -, h⟩
      rwa [(hunique hk).2] at h
    · exact fun h => ⟨flag, j, hflag, hzero, h⟩
  have hgreedy : Greedy room i ↔ Exceeds room j := by
    constructor
    · rintro ⟨flag', k, hk, -, h⟩
      rwa [(hunique hk).2] at h
    · exact fun h => ⟨flag, j, hflag, hzero, h⟩
  rw [unpack_layout hroom hv hflag hzero, hcut, hgreedy, ← fields_stopped_iff hroom hj.pos_le_self]
  by_cases hexceeds : Exceeds room j
  · rw [hexceeds.fields_abort]
    exact iff_of_false (fun h => h) fun h => h.2.2 hexceeds
  obtain ⟨k, -, herr | ⟨l, hl⟩⟩ := safe_fields hroom hj.pos_le_self hexceeds
  · obtain ⟨l, hl⟩ := reader_eq_error.1 herr
    rw [hl]
    cases hd : slurmStepLayoutDestroy l with
    | none =>
      refine iff_of_false ?_ fun h => h.2.1 ⟨l, k, rfl, hd⟩
      simp [unpackError, hd, Proper]
    | some _ =>
      refine iff_of_true ?_ ⟨fun h => absurd h hnull, ?_, hexceeds⟩
      · simp [unpackError, hd, Proper]
      · rintro ⟨l', k', hl', hnone⟩
        obtain ⟨rfl, -⟩ := Filled.stopped.inj hl'
        cases hd.symm.trans hnone
  · have hl := reader_eq_ok.1 hl
    rw [hl]
    refine iff_of_true ⟨fun h => absurd h hnull, fun _ => ⟨l, rfl, (of_fields_done hl).1⟩⟩
      ⟨fun h => absurd h hnull, ?_, hexceeds⟩
    rintro ⟨l', k', hl', -⟩
    cases hl'

theorem unpack_packed (hv : slurm23 ≤ version) (hc : Consistent l)
    (hr : Receivable room l) (hpos : i.pos ≤ i.data.length)
    (hahead : (Value.u16 1 :: values l).flatMap wire <+: i.ahead) :
    unpackSlurmStepLayout room layout version i =
      .success (some (received l)) (i.advance ((Value.u16 1 :: values l).flatMap wire).length) := by
  have hflag : Reads unpack16 (wire (.u16 1)) 1 := reads_unpackFixed (by decide)
  rw [flatMap_cons] at *
  have hread := hflag.bind (f := fun _ => (fields room).reader emptyLayout) (reads_fields hroom hc hr)
    i hpos hahead
  obtain ⟨flag, j, hj, hfields⟩ := bind_eq_ok hread
  have hflag := hflag i hpos ((prefix_append _ _).trans hahead)
  obtain ⟨rfl, rfl⟩ := Outcome.ok.inj (hj.symm.trans hflag)
  rw [unpack_layout hroom hv hflag (by decide), reader_eq_ok.1 hfields]

end

theorem Same.receivable {l' : StepLayout} (h : Same l l') (hr : Receivable room l') : Receivable room l := by
  constructor
  · rw [← h.planeSize]
    exact hr.planeSize
  · rw [← h.frontEnd]
    exact hr.frontEnd
  · rw [← h.nodeList]
    exact hr.nodeList
  · rw [← h.nodeCnt]
    exact hr.nodes

theorem receivable_of_success (hroom : maxPackStrLen ≤ room) (hpos : i.pos ≤ i.data.length)
    (h : unpackSlurmStepLayout room none version i = .success (some l) j) :
    slurm23 ≤ version ∧ Receivable room l := by
  by_cases hv : slurm23 ≤ version
  swap
  · rw [unpackSlurmStepLayout, if_neg hv] at h
    simp [unpackError] at h
  refine ⟨hv, ?_⟩
  obtain ⟨k, -, herr | ⟨flag, hflag⟩⟩ := safe_unpackFixed hpos
  · rw [unpackSlurmStepLayout, if_pos hv, unpack16, herr] at h
    simp [unpackError] at h
  by_cases hzero : flag = 0
  · subst hzero
    rw [unpack_null hv hflag] at h
    cases h
  rw [unpack_layout hroom hv hflag hzero] at h
  cases hf : fields room emptyLayout k with
  | done m k =>
    rw [hf] at h
    obtain ⟨h, -⟩ := Unpacked.success.inj h
    cases h
    exact (of_fields_done hf).2
  | stopped m k =>
    rw [hf] at h
    cases hd : slurmStepLayoutDestroy m <;> simp [unpackError, hd] at h
  | abort | overread =>
    rw [hf] at h
    cases h

theorem unpack_null_iff (hok : Ok b) (hb : b.pos = 0) (hover : b.overflows = 0)
    (hpack : packSlurmStepLayout none version b = some b') (hfine : b'.overflows = 0) (hi : i.pos = 0)
    (hdata : b'.data.take b'.pos <+: i.data) :
    unpackSlurmStepLayout room layout version i = .success none (i.advance b'.pos) ↔
      slurm23 ≤ version ∧ layout = none := by
  by_cases hv : slurm23 ≤ version
  · rw [packSlurmStepLayout, if_pos hv] at hpack
    cases hpack
    have hp : Packed b (pack16 0 b) (beBytes 2 0) := packed_packFixed hok (by decide)
    obtain ⟨hpos, hahead⟩ := ahead_of_packed hb hover hp hfine hi hdata
    have hflag : Reads unpack16 (beBytes 2 0) 0 := reads_unpackFixed (by decide)
    rw [unpack_null hv (hflag i (by omega) hahead), hpos]
    constructor
    · intro h
      exact ⟨hv, (Unpacked.success.inj h).1⟩
    · rintro ⟨-, rfl⟩
      rfl
  · rw [unpackSlurmStepLayout, if_neg hv]
    refine iff_of_false ?_ fun h => hv h.1
    simp [unpackError]

def oneNode : StepLayout := ⟨none, 1, some [110, 0], 0, some [1], 1, 1, some [some [0]]⟩

end Slurmpp.StepLayoutPack
