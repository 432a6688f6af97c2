/-
  Job resources on the wire (`pack_job_resources`, `unpack_job_resources` and `free_job_resources` of
  `src/common/job_resources.c`).

  1. Of the three arrays of groups only as many entries are sent as cover the hosts.  The node bitmap is not sent:
     its bits are places in a table of the sender, and the receiver makes it from the names.
  2. **There and back** — each stage of the unpacker takes what the packer appends for it (`Fills`).
  3. **The way out** — a stage whose bytes are cut off reports an error (`fills_fields`), which frees the record;
     an error in the very first number comes before there is one (`Pointer.wild`).
-/
import Slurmpp.Lib.Filler
import Slurmpp.Common.PackBits
import Slurmpp.Common.JobResources

namespace Slurmpp.JobRes

open Reader Filler Pack PackBits Bitstring List Option

/-! ## Packing -/

/-- `pack16_array(array, size, buffer)`, or of no elements for `NULL`; `none` when the array is shorter. -/
def pack16ArrayOf (array : Option (List (BitVec 16))) (size : Nat) (b : Buf) : Option Buf :=
  match array with
  | some vals => if size ≤ vals.length then some (pack16Array (vals.take size) b) else none
  | none => some (pack16Array [] b)

def pack32ArrayOf (array : Option (List (BitVec 32))) (size : Nat) (b : Buf) : Option Buf :=
  match array with
  | some vals => if size ≤ vals.length then some (pack32Array (vals.take size) b) else none
  | none => some (pack32Array [] b)

/-- `node_req` had 8 bits before version 2.5. -/
def packNodeReq (version : BitVec 16) (nodeReq : BitVec 32) : Buf → Buf :=
  if slurm25 ≤ version then pack32 nodeReq else pack8 (nodeReq.setWidth 8)

/-- The loop that counts the groups, `n` turns from `i`: the first `i` with `sock_recs` at least `nhosts`.
    (`core_cnt` is added up and not used.) -/
def sockRecsLoop (nhosts : BitVec 32) (sockets cores : List (BitVec 16)) (reps : List (BitVec 32)) :
    Nat → Nat → BitVec 32 → Option Nat
  | 0, i, _ => some i
  | n + 1, i, sockRecs =>
    match sockets[i]?, cores[i]?, reps[i]? with
    | some _, some _, some c =>
      if nhosts ≤ sockRecs + c then some i
      else sockRecsLoop nhosts sockets cores reps n (i + 1) (sockRecs + c)
    | _, _, _ => none

/-- The fields that are sent unless the cluster is a BlueGene; `none` when an assertion fails, or the
    arrays are too short. -/
def packGroups (r : JobResources) (b : Buf) : Option Buf :=
  match r.socketsPerNode, r.coresPerSocket, r.sockCoreRepCount with
  | some sockets, some cores, some reps =>
    (sockRecsLoop r.nhosts sockets cores reps r.nhosts.toNat 0 0).bind fun i =>
      (pack16ArrayOf (some sockets) (i + 1) b).bind fun b =>
        (pack16ArrayOf (some cores) (i + 1) b).bind fun b =>
          (pack32ArrayOf (some reps) (i + 1) b).bind fun b =>
            match r.coreBitmap, r.coreBitmapUsed with
            | some coreBitmap, some coreBitmapUsed =>
              (packBitStr (some coreBitmap) b).bind fun b => packBitStr (some coreBitmapUsed) b
            | _, _ => none
  | _, _, _ => none

/-- `pack_job_resources`; `bg` is `cluster_flags & CLUSTER_FLAG_BG`. -/
def packJobResources (bg : Bool) (job : Option JobResources) (version : BitVec 16) (b : Buf) : Option Buf :=
  if slurm23 ≤ version then
    match job with
    | none => some (pack32 (BitVec.ofNat 32 noVal) b)
    | some r =>
      let b := packNodeReq version r.nodeReq (pack32 r.ncpus (pack32 r.nhosts b))
      (packstr (r.nodes.map cString) b).bind fun b =>
        (pack32ArrayOf r.cpuArrayReps r.cpuArrayCnt.toNat b).bind fun b =>
          (pack16ArrayOf r.cpuArrayValue r.cpuArrayCnt.toNat b).bind fun b =>
            (pack16ArrayOf r.cpus r.nhosts.toNat b).bind fun b =>
              (pack16ArrayOf r.cpusUsed r.nhosts.toNat b).bind fun b =>
                (pack32ArrayOf r.memoryAllocated r.nhosts.toNat b).bind fun b =>
                  (pack32ArrayOf r.memoryUsed r.nhosts.toNat b).bind fun b =>
                    if bg then some b else packGroups r b
  else some b

/-! ## Unpacking -/

/-- The structure that is being filled, and `tmp32`. -/
structure Work extends JobResources where
  tmp32 : Nat

/-- `safe_unpack16_array(&array, &tmp32, buffer); if (tmp32 == 0) xfree(array);`.  When the elements
    break off, `array` has been set already; what is in it is not looked at again. -/
def unpackArray16 (room : Nat) (set : Option (List (BitVec 16)) → JobResources → JobResources) : Filler Work :=
  intoOr (unpack16Array room)
    (fun v w => ⟨set (if v.1 = 0 then none else some (v.2.map (BitVec.ofNat 16))) w.toJobResources, v.1⟩)
    fun i w =>
      match countAhead i with
      | some size => ⟨set (some (replicate size 0)) w.toJobResources, size⟩
      | none => w

def unpackArray32 (room : Nat) (set : Option (List (BitVec 32)) → JobResources → JobResources) : Filler Work :=
  intoOr (unpack32Array room)
    (fun v w => ⟨set (if v.1 = 0 then none else some (v.2.map (BitVec.ofNat 32))) w.toJobResources, v.1⟩)
    fun i w =>
      match countAhead i with
      | some size => ⟨set (some (replicate size 0)) w.toJobResources, size⟩
      | none => w

def unpackNcpus : Filler Work := into unpack32 fun n w => { w with ncpus := BitVec.ofNat 32 n }

def nodeCrReserved : BitVec 32 := 64000

/-- From 8 bits, anything from 100 on is `NODE_CR_RESERVED`. -/
def unpackNodeReq (version : BitVec 16) : Filler Work :=
  if slurm25 ≤ version then into unpack32 fun n w => { w with nodeReq := BitVec.ofNat 32 n }
  else into unpack8 fun n w =>
    { w with nodeReq := if n < 100 then BitVec.ofNat 32 n else nodeCrReserved }

def unpackNodes (room : Nat) : Filler Work :=
  into (unpackmemXmalloc room) fun v w => { w with nodes := v.2, tmp32 := v.1 }

def unpackCpuArrayReps (room : Nat) : Filler Work :=
  seq (unpackArray32 room fun a r => { r with cpuArrayReps := a })
    (into (ret ()) fun _ w => { w with cpuArrayCnt := BitVec.ofNat 32 w.tmp32 })

def unpackCpuArrayValue (room : Nat) : Filler Work :=
  seq (unpackArray16 room fun a r => { r with cpuArrayValue := a })
    (check fun w => w.tmp32 = w.cpuArrayCnt.toNat)

def unpackCpus (room : Nat) : Filler Work :=
  seq (unpackArray16 room fun a r => { r with cpus := a }) (check fun w => w.tmp32 = w.nhosts.toNat)

def unpackCpusUsed (room : Nat) : Filler Work := unpackArray16 room fun a r => { r with cpusUsed := a }

def unpackMemoryAllocated (room : Nat) : Filler Work :=
  unpackArray32 room fun a r => { r with memoryAllocated := a }

def unpackMemoryUsed (room : Nat) : Filler Work := unpackArray32 room fun a r => { r with memoryUsed := a }

def unpackSocketsPerNode (room : Nat) : Filler Work :=
  unpackArray16 room fun a r => { r with socketsPerNode := a }

def unpackCoresPerSocket (room : Nat) : Filler Work :=
  unpackArray16 room fun a r => { r with coresPerSocket := a }

def unpackSockCoreRepCount (room : Nat) : Filler Work :=
  unpackArray32 room fun a r => { r with sockCoreRepCount := a }

/-- `unpack_bit_str`; when the text breaks off, the bitmap has been made already. -/
def unpackBitmap (room : Nat) (set : Option Bitstr → JobResources → JobResources) : Filler Work :=
  intoOr (unpackBitStr room) (fun v w => { w with toJobResources := set v w.toJobResources })
    fun i w =>
      match countAhead i with
      | some size => { w with toJobResources := set (bitAlloc size) w.toJobResources }
      | none => w

def unpackCoreBitmap (room : Nat) : Filler Work := unpackBitmap room fun v r => { r with coreBitmap := v }

def unpackCoreBitmapUsed (room : Nat) : Filler Work :=
  unpackBitmap room fun v r => { r with coreBitmapUsed := v }

def unpackGroups (room : Nat) : Filler Work :=
  seq (unpackSocketsPerNode room) (seq (unpackCoresPerSocket room) (seq (unpackSockCoreRepCount room)
    (seq (unpackCoreBitmap room) (unpackCoreBitmapUsed room))))

def unpackHosts (room : Nat) (version : BitVec 16) : Filler Work :=
  seq unpackNcpus (seq (unpackNodeReq version) (seq (unpackNodes room) (seq (unpackCpuArrayReps room)
    (seq (unpackCpuArrayValue room) (seq (unpackCpus room) (seq (unpackCpusUsed room)
      (seq (unpackMemoryAllocated room) (unpackMemoryUsed room))))))))

def fields (room : Nat) (bg : Bool) (version : BitVec 16) : Filler Work :=
  seq (unpackHosts room version) (if bg then .done else unpackGroups room)

/-- The local variable `job_resrcs`: it is `wild` until it is assigned. -/
inductive Pointer
  | wild
  | null
  | block (r : JobResources)

/-- `free_job_resources`: every pointer in the block is `NULL` or was set by an unpacker; `none` when it
    follows a pointer without a value. -/
def freeJobResources : Pointer → Option Pointer
  | .wild => none
  | .null => some .null
  | .block _ => some .null

/-- What `unpack_job_resources` returns, with `*job_resrcs_pptr` and the buffer after it; or how it
    ends. -/
inductive Unpacked
  | success (job : Option JobResources) (i : Input)
  | error (job : Option JobResources) (i : Input)
  | badPointer
  | abort
  | overread

def unpackError (jobResrcs : Pointer) (i : Input) : Unpacked :=
  match freeJobResources jobResrcs with
  | some _ => .error none i
  | none => .badPointer

def sizeofJobResources : Nat := 136

def unpackJobResources (room : Nat) (bg : Bool) (version : BitVec 16) (i : Input) : Unpacked :=
  if slurm23 ≤ version then
    match unpack32 i with
    | .ok empty j =>
      if empty = noVal then .success none j
      else
        match seq (into (xmalloc room sizeofJobResources) fun _ w => w) (fields room bg version)
          ⟨{ createJobResources with nhosts := BitVec.ofNat 32 empty }, 0⟩ j with
        | .done w k => .success (some w.toJobResources) k
        | .stopped w k => unpackError (.block w.toJobResources) k
        | .abort => .abort
        | .overread => .overread
    | .error j => unpackError .wild j
    | .abort => .abort
    | .overread => .overread
  else unpackError .wild i

variable {room n g : Nat} {version : BitVec 16} {r : JobResources} {b b' : Buf} {i j : Input} {w : Work}

/-! ## Arrays -/

/-- `NULL`, or an array of `n` elements and at least one. -/
def Sized {α : Type} (n : Nat) (array : Option (List α)) : Prop :=
  ∀ vals ∈ array, vals.length = n ∧ vals ≠ []

variable {α : Type} {array : Option (List α)} {array16 : Option (List (BitVec 16))}
  {array32 : Option (List (BitVec 32))}

theorem Sized.length_getD_le (h : Sized n array) : (array.getD []).length ≤ n := by
  cases array with
  | none => exact Nat.zero_le _
  | some vals => exact (h vals rfl).1.le

theorem Sized.length_getD (h : Sized n array) (hnull : array = none → n = 0) : (array.getD []).length = n := by
  cases array with
  | none => exact (hnull rfl).symm
  | some vals => exact (h vals rfl).1

theorem pack16ArrayOf_eq (h : Sized n array16) : pack16ArrayOf array16 n b = pack (.u16s (array16.getD [])) b := by
  cases array16 with
  | none => rfl
  | some vals =>
    obtain rfl := (h vals rfl).1
    rw [pack16ArrayOf, if_pos le_rfl, take_length]
    rfl

theorem pack32ArrayOf_eq (h : Sized n array32) : pack32ArrayOf array32 n b = pack (.u32s (array32.getD [])) b := by
  cases array32 with
  | none => rfl
  | some vals =>
    obtain rfl := (h vals rfl).1
    rw [pack32ArrayOf, if_pos le_rfl, take_length]
    rfl

theorem received_array {k : Nat} {array : Option (List (BitVec k))} (h : Sized n array) :
    (if (array.getD []).length = 0 then none
      else some (((array.getD []).map BitVec.toNat).map (BitVec.ofNat k))) = array := by
  cases array with
  | none => rfl
  | some vals =>
    have hne : vals.length ≠ 0 := fun h0 => (h vals rfl).2 (length_eq_zero_iff.1 h0)
    have hback : (vals.map BitVec.toNat).map (BitVec.ofNat k) = vals := by
      rw [List.map_map]
      conv_rhs => rw [← List.map_id vals]
      exact map_congr_left fun x _ => by simp
    rw [getD_some, if_neg hne, hback]

section Limits

variable (hroom : maxPackStrLen ≤ room) (hn : n ≤ 4000000)

include hroom hn

theorem fits_u16s (h : Sized n array16) : (Value.u16s (array16.getD [])).Fits room := by
  have hmax : 16777216 ≤ room := hroom
  have hlen := h.length_getD_le
  exact ⟨by omega, by omega⟩

theorem fits_u32s (h : Sized n array32) : (Value.u32s (array32.getD [])).Fits room := by
  have hmax : 16777216 ≤ room := hroom
  have hlen := h.length_getD_le
  exact ⟨by omega, by omega⟩

theorem fills_array16 {set : Option (List (BitVec 16)) → JobResources → JobResources} (h : Sized n array16) :
    Fills (unpackArray16 room set) w (wire (.u16s (array16.getD [])))
      ⟨set array16 w.toJobResources, (array16.getD []).length⟩ := by
  have hfill : Fills (unpackArray16 room set) w _ _ := fills_intoOr (takes_unpack16Array (fits_u16s hroom hn h))
  rwa [received_array h] at hfill

theorem fills_array32 {set : Option (List (BitVec 32)) → JobResources → JobResources} (h : Sized n array32) :
    Fills (unpackArray32 room set) w (wire (.u32s (array32.getD [])))
      ⟨set array32 w.toJobResources, (array32.getD []).length⟩ := by
  have hfill : Fills (unpackArray32 room set) w _ _ := fills_intoOr (takes_unpack32Array (fits_u32s hroom hn h))
  rwa [received_array h] at hfill

/-- An array whose length is checked. -/
theorem fills_checked16 {set : Option (List (BitVec 16)) → JobResources → JobResources} {p : Work → Bool}
    (h : Sized n array16) (hp : p ⟨set array16 w.toJobResources, (array16.getD []).length⟩ = true) :
    Fills (seq (unpackArray16 room set) (check p)) w (wire (.u16s (array16.getD [])))
      ⟨set array16 w.toJobResources, (array16.getD []).length⟩ := by
  have hboth := (fills_array16 hroom hn h).seq (fills_check hp)
  rwa [append_nil] at hboth

end Limits

/-! ## The hosts -/

/-- The fields up to `memory_used` agree with each other. -/
structure HostsOk (r : JobResources) : Prop where
  nhosts_ne : r.nhosts.toNat ≠ noVal
  nodes : ∀ s ∈ r.nodes, IsCString s
  cpuArrayReps : Sized r.cpuArrayCnt.toNat r.cpuArrayReps
  cpuArrayValue : Sized r.cpuArrayCnt.toNat r.cpuArrayValue
  cpuArray_null : r.cpuArrayReps = none ∨ r.cpuArrayValue = none → r.cpuArrayCnt = 0
  cpus : Sized r.nhosts.toNat r.cpus
  cpus_present : r.cpus ≠ none
  cpusUsed : Sized r.nhosts.toNat r.cpusUsed
  memoryAllocated : Sized r.nhosts.toNat r.memoryAllocated
  memoryUsed : Sized r.nhosts.toNat r.memoryUsed

/-- They are within the limits of the packers. -/
structure HostsFit (r : JobResources) : Prop where
  nhosts : r.nhosts.toNat ≤ 4000000
  cpuArrayCnt : r.cpuArrayCnt.toNat ≤ 4000000
  nodes : ∀ s ∈ r.nodes, s.length ≤ maxPackStrLen

/-- `node_req` as it is sent. -/
def nodeReqValue (version : BitVec 16) (nodeReq : BitVec 32) : Value :=
  if slurm25 ≤ version then .u32 nodeReq else .u8 (nodeReq.setWidth 8)

/-- The values up to `memory_used`, behind `nhosts`. -/
def hostsValues (version : BitVec 16) (r : JobResources) : List Value :=
  [.u32 r.ncpus, nodeReqValue version r.nodeReq, .str .xmalloc (r.nodes.map cString),
    .u32s (r.cpuArrayReps.getD []), .u16s (r.cpuArrayValue.getD []), .u16s (r.cpus.getD []),
    .u16s (r.cpusUsed.getD []), .u32s (r.memoryAllocated.getD []), .u32s (r.memoryUsed.getD [])]

theorem fills_nodeReq (h : slurm25 ≤ version ∨ r.nodeReq.toNat < 100) :
    Fills (unpackNodeReq version) w (wire (nodeReqValue version r.nodeReq)) { w with nodeReq := r.nodeReq } := by
  unfold unpackNodeReq nodeReqValue
  by_cases hv : slurm25 ≤ version
  · rw [if_pos hv, if_pos hv]
    have hfill : Fills (into unpack32 fun n w => { w with nodeReq := BitVec.ofNat 32 n }) w _ _ :=
      fills_into (takes_unpackFixed r.nodeReq.isLt)
    simp only [BitVec.ofNat_toNat, BitVec.setWidth_eq] at hfill
    exact hfill
  · have hsmall := h.resolve_left hv
    have hlow : (r.nodeReq.setWidth 8).toNat = r.nodeReq.toNat := by
      rw [BitVec.toNat_setWidth, Nat.mod_eq_of_lt (by omega)]
    rw [if_neg hv, if_neg hv, wire, hlow]
    have hfill : Fills (into unpack8 fun n w =>
        { w with nodeReq := if n < 100 then BitVec.ofNat 32 n else nodeCrReserved }) w _ _ :=
      fills_into (takes_unpackFixed (show r.nodeReq.toNat < 256 ^ 1 by omega))
    simp only [if_pos hsmall, BitVec.ofNat_toNat, BitVec.setWidth_eq] at hfill
    exact hfill

theorem fills_ncpus : Fills unpackNcpus w (wire (.u32 r.ncpus)) { w with ncpus := r.ncpus } := by
  have hfill : Fills unpackNcpus w _ _ := fills_into (takes_unpackFixed r.ncpus.isLt)
  simp only [BitVec.ofNat_toNat, BitVec.setWidth_eq] at hfill
  exact hfill

/-- The record behind `memory_used`. -/
def withHosts (r : JobResources) (w : Work) : Work :=
  ⟨{ w.toJobResources with
      ncpus := r.ncpus, nodeReq := r.nodeReq, nodes := r.nodes, cpuArrayReps := r.cpuArrayReps
      cpuArrayCnt := r.cpuArrayCnt, cpuArrayValue := r.cpuArrayValue, cpus := r.cpus
      cpusUsed := r.cpusUsed, memoryAllocated := r.memoryAllocated, memoryUsed := r.memoryUsed },
    (r.memoryUsed.getD []).length⟩

section

variable (hroom : maxPackStrLen ≤ room) (h : HostsOk r) (hfit : HostsFit r)
include hroom h hfit

theorem hostsValues_fit :
    ∀ val ∈ Value.u32 r.nhosts :: hostsValues version r, val.Fits room := by
  intro val hval
  simp only [hostsValues, mem_cons, not_mem_nil, or_false] at hval
  rcases hval with rfl | rfl | rfl | rfl | rfl | rfl | rfl | rfl | rfl | rfl
  · exact trivial
  · exact trivial
  · unfold nodeReqValue
    split
    · exact trivial
    · exact trivial
  · exact fits_cString h.nodes hroom hfit.nodes
  · exact fits_u32s hroom hfit.cpuArrayCnt h.cpuArrayReps
  · exact fits_u16s hroom hfit.cpuArrayCnt h.cpuArrayValue
  · exact fits_u16s hroom hfit.nhosts h.cpus
  · exact fits_u16s hroom hfit.nhosts h.cpusUsed
  · exact fits_u32s hroom hfit.nhosts h.memoryAllocated
  · exact fits_u32s hroom hfit.nhosts h.memoryUsed

theorem fills_cpuArrayReps :
    Fills (unpackCpuArrayReps room) w (wire (.u32s (r.cpuArrayReps.getD [])))
      ⟨{ w.toJobResources with cpuArrayReps := r.cpuArrayReps, cpuArrayCnt := r.cpuArrayCnt },
        (r.cpuArrayReps.getD []).length⟩ := by
  have hlen : (r.cpuArrayReps.getD []).length = r.cpuArrayCnt.toNat :=
    h.cpuArrayReps.length_getD fun hnull => by simp [h.cpuArray_null (.inl hnull)]
  have harray : Fills (unpackArray32 room fun a r => { r with cpuArrayReps := a }) w _ _ :=
    fills_array32 hroom hfit.cpuArrayCnt h.cpuArrayReps
  have hset : Fills (into (ret ()) fun _ (w : Work) => { w with cpuArrayCnt := BitVec.ofNat 32 w.tmp32 })
    ⟨{ w.toJobResources with cpuArrayReps := r.cpuArrayReps }, (r.cpuArrayReps.getD []).length⟩ [] _ :=
    fills_into (takes_ret ())
  have hboth := harray.seq hset
  rw [append_nil] at hboth
  rw [hlen, BitVec.ofNat_toNat, BitVec.setWidth_eq] at hboth
  rw [hlen]
  exact hboth

theorem fills_cpuArrayValue (hw : w.cpuArrayCnt = r.cpuArrayCnt) :
    Fills (unpackCpuArrayValue room) w (wire (.u16s (r.cpuArrayValue.getD [])))
      ⟨{ w.toJobResources with cpuArrayValue := r.cpuArrayValue }, (r.cpuArrayValue.getD []).length⟩ := by
  have hlen : (r.cpuArrayValue.getD []).length = r.cpuArrayCnt.toNat :=
    h.cpuArrayValue.length_getD fun hnull => by simp [h.cpuArray_null (.inr hnull)]
  exact fills_checked16 hroom hfit.cpuArrayCnt h.cpuArrayValue (by simp [hlen, hw])

theorem fills_cpus (hw : w.nhosts = r.nhosts) :
    Fills (unpackCpus room) w (wire (.u16s (r.cpus.getD [])))
      ⟨{ w.toJobResources with cpus := r.cpus }, (r.cpus.getD []).length⟩ := by
  have hlen := h.cpus.length_getD fun hnull => absurd hnull h.cpus_present
  exact fills_checked16 hroom hfit.nhosts h.cpus (by simp [hlen, hw])

theorem fills_nodes :
    Fills (unpackNodes room) w (wire (.str .xmalloc (r.nodes.map cString)))
      { w with nodes := r.nodes, tmp32 := (strBytes (r.nodes.map cString)).length } :=
  fills_into (takes_cString h.nodes (fits_cString h.nodes hroom hfit.nodes))

theorem fills_hosts (hreq : slurm25 ≤ version ∨ r.nodeReq.toNat < 100) (hw : w.nhosts = r.nhosts) :
    Fills (unpackHosts room version) w ((hostsValues version r).flatMap wire) (withHosts r w) := by
  simp only [hostsValues, flatMap_cons, flatMap_nil, append_nil]
  refine fills_ncpus.seq ?_
  refine (fills_nodeReq hreq).seq ?_
  refine (fills_nodes hroom h hfit).seq ?_
  refine (fills_cpuArrayReps hroom h hfit).seq ?_
  refine (fills_cpuArrayValue hroom h hfit rfl).seq ?_
  refine (fills_cpus hroom h hfit (by exact hw)).seq ?_
  refine (fills_array16 hroom hfit.nhosts h.cpusUsed).seq ?_
  refine (fills_array32 hroom hfit.nhosts h.memoryAllocated).seq ?_
  exact fills_array32 hroom hfit.nhosts h.memoryUsed

end

/-! ## The groups -/

/-- The first `g` entries of the three arrays cover the hosts, each of them at least one. -/
structure Covers (r : JobResources) (sockets cores : List (BitVec 16)) (reps : List (BitVec 32))
    (g : Nat) : Prop where
  sockets_eq : r.socketsPerNode = some sockets
  cores_eq : r.coresPerSocket = some cores
  reps_eq : r.sockCoreRepCount = some reps
  le_sockets : g ≤ sockets.length
  le_cores : g ≤ cores.length
  le_reps : g ≤ reps.length
  reps_pos : ∀ c ∈ reps.take g, 0 < c.toNat
  reps_sum : ((reps.take g).map BitVec.toNat).sum = r.nhosts.toNat

variable {sockets cores : List (BitVec 16)} {reps : List (BitVec 32)} {coreBitmap coreBitmapUsed : Bitstr}

theorem sum_take_succ {k : Nat} {c : BitVec 32} (h : reps[k]? = some c) :
    ((reps.take (k + 1)).map BitVec.toNat).sum = ((reps.take k).map BitVec.toNat).sum + c.toNat := by
  rw [take_add_one, h, map_append, sum_append]
  simp

theorem sum_take_add_le (hle : g ≤ reps.length) (hpos : ∀ c ∈ reps.take g, 0 < c.toNat) {k : Nat} (hk : k ≤ g) :
    ((reps.take k).map BitVec.toNat).sum + (g - k) ≤ ((reps.take g).map BitVec.toNat).sum := by
  obtain ⟨d, rfl⟩ := Nat.exists_eq_add_of_le hk
  clear hk
  induction d with
  | zero => simp
  | succ d ih =>
    have hentry := getElem?_eq_getElem (show k + d < reps.length by omega)
    have hmem : reps[k + d] ∈ reps.take (k + (d + 1)) :=
      mem_take_iff_getElem.2 ⟨k + d, by omega, rfl⟩
    have hrest := ih (by omega) fun c hc => hpos c (take_subset_take_left _ (by omega) hc)
    have hc := hpos _ hmem
    rw [← Nat.add_assoc, sum_take_succ hentry]
    omega

section

variable (h : Covers r sockets cores reps g)
include h

theorem Covers.entry {k : Nat} (hk : k < g) :
    ∃ s c rep, sockets[k]? = some s ∧ cores[k]? = some c ∧ reps[k]? = some rep :=
  ⟨_, _, _, getElem?_eq_getElem (hk.trans_le h.le_sockets),
    getElem?_eq_getElem (hk.trans_le h.le_cores), getElem?_eq_getElem (hk.trans_le h.le_reps)⟩

/-- **The loop finds the last of the groups.** -/
theorem sockRecsLoop_eq (m : Nat) {k n : Nat} {sockRecs : BitVec 32}
    (hk : k + m + 1 = g) (hn : m < n) (hrecs : sockRecs.toNat = ((reps.take k).map BitVec.toNat).sum) :
    sockRecsLoop r.nhosts sockets cores reps n k sockRecs = some (g - 1) := by
  have hlt := r.nhosts.isLt
  induction n generalizing k m sockRecs with
  | zero => omega
  | succ n ih =>
    obtain ⟨s, c, rep, h1, h2, h3⟩ := h.entry (k := k) (by omega)
    have hsum := sum_take_succ h3
    have hmore := sum_take_add_le h.le_reps h.reps_pos (k := k + 1) (by omega)
    rw [h.reps_sum] at hmore
    have hnext : (sockRecs + rep).toNat = ((reps.take (k + 1)).map BitVec.toNat).sum := by
      rw [BitVec.toNat_add, hrecs, ← hsum, Nat.mod_eq_of_lt (by omega)]
    rw [sockRecsLoop, h1, h2, h3]
    simp only [BitVec.le_def, hnext]
    cases m with
    | zero =>
      rw [if_pos (by rw [show k + 1 = g from hk, h.reps_sum]), ← hk]
      rfl
    | succ m =>
      rw [if_neg (by omega)]
      exact ih m (by omega) (by omega) hnext

theorem Covers.le_nhosts : g ≤ r.nhosts.toNat := by
  have := sum_take_add_le h.le_reps h.reps_pos (Nat.zero_le g)
  rw [h.reps_sum] at this
  omega

theorem Covers.pos (hhosts : 0 < r.nhosts.toNat) : 0 < g := by
  rcases Nat.eq_zero_or_pos g with rfl | hpos
  · have := h.reps_sum
    simp at this
    omega
  · exact hpos

def groupsValues (sockets cores : List (BitVec 16)) (reps : List (BitVec 32)) (g : Nat) : List Value :=
  [.u16s (sockets.take g), .u16s (cores.take g), .u32s (reps.take g)]

theorem packGroups_eq (hhosts : 0 < r.nhosts.toNat)
    (hcore : r.coreBitmap = some coreBitmap) (hused : r.coreBitmapUsed = some coreBitmapUsed) :
    packGroups r b = (packAll (groupsValues sockets cores reps g) b).bind fun b =>
      (packBitStr (some coreBitmap) b).bind fun b => packBitStr (some coreBitmapUsed) b := by
  have hpos := h.pos hhosts
  have hle := h.le_nhosts
  have hloop := sockRecsLoop_eq h (g - 1) (k := 0) (n := r.nhosts.toNat) (by omega) (by omega)
    (show (0 : BitVec 32).toNat = _ by simp)
  have hlast : g - 1 + 1 = g := by omega
  rw [packGroups, h.sockets_eq, h.cores_eq, h.reps_eq, hcore, hused]
  dsimp only
  rw [hloop, bind_some, hlast, groupsValues]
  simp only [pack16ArrayOf, pack32ArrayOf, if_pos h.le_sockets, if_pos h.le_cores, if_pos h.le_reps,
    packAll_cons, pack, bind_some]
  rfl

/-- The record behind the bitmaps. -/
def withGroups (sockets cores : List (BitVec 16)) (reps : List (BitVec 32)) (core used : Bitstr) (w : Work) : Work :=
  ⟨{ w.toJobResources with
      socketsPerNode := some sockets, coresPerSocket := some cores, sockCoreRepCount := some reps
      coreBitmap := some core, coreBitmapUsed := some used }, reps.length⟩

/-- **The groups come back**, with whatever the texts of the bitmaps are read as. -/
theorem fills_groups {coreBytes usedBytes : List Byte} {core used : Bitstr}
    (hroom : maxPackStrLen ≤ room) (hhosts : 0 < r.nhosts.toNat)
    (hfew : r.nhosts.toNat ≤ 4000000) (hcore : Takes (unpackBitStr room) coreBytes (some core))
    (hused : Takes (unpackBitStr room) usedBytes (some used)) :
    Fills (unpackGroups room) w
      ((groupsValues sockets cores reps g).flatMap wire ++ (coreBytes ++ usedBytes))
      (withGroups (sockets.take g) (cores.take g) (reps.take g) core used w) := by
  have hpos := h.pos hhosts
  have hle := h.le_nhosts
  have hsized : ∀ {α : Type} (vals : List α), g ≤ vals.length → Sized g (some (vals.take g)) := by
    rintro α vals hvals _ ⟨⟩
    have hlen : (vals.take g).length = g := by rw [length_take, min_eq_left hvals]
    exact ⟨hlen, ne_nil_of_length_pos (hlen.symm ▸ hpos)⟩
  have hg := hle.trans hfew
  have hwire : (groupsValues sockets cores reps g).flatMap wire ++ (coreBytes ++ usedBytes) =
      wire (.u16s (sockets.take g)) ++ (wire (.u16s (cores.take g)) ++ (wire (.u32s (reps.take g)) ++
        (coreBytes ++ usedBytes))) := by
    simp only [groupsValues, flatMap_cons, flatMap_nil, append_nil, append_assoc]
  rw [hwire]
  refine (fills_array16 hroom hg (hsized sockets h.le_sockets)).seq ?_
  refine (fills_array16 hroom hg (hsized cores h.le_cores)).seq ?_
  refine (fills_array32 hroom hg (hsized reps h.le_reps)).seq ?_
  exact (fills_intoOr hcore).seq (fills_intoOr hused)

end

/-! ## There and back, or not all the way -/

/-- The same size and the same bits, or both `NULL`. -/
def SameBits : Option Bitstr → Option Bitstr → Prop :=
  Option.Rel fun b b' => b'.bits = b.bits ∧ ∀ j < b.bits, bitTest b' j = bitTest b j

/-- What is sent unless the cluster is a BlueGene. -/
def unlessBg {α : Type} (bg : Bool) (a : Option α) : Option α := if bg then none else a

/-- `r'` is `r` as it is delivered: without the node bitmap, and of the groups only the first `g`. -/
structure Delivered (bg : Bool) (g : Nat) (r r' : JobResources) : Prop where
  fields : r' = { r with
    nodeBitmap := none
    socketsPerNode := unlessBg bg (r.socketsPerNode.map (take g))
    coresPerSocket := unlessBg bg (r.coresPerSocket.map (take g))
    sockCoreRepCount := unlessBg bg (r.sockCoreRepCount.map (take g))
    coreBitmap := r'.coreBitmap
    coreBitmapUsed := r'.coreBitmapUsed }
  coreBitmap : SameBits (unlessBg bg r.coreBitmap) r'.coreBitmap
  coreBitmapUsed : SameBits (unlessBg bg r.coreBitmapUsed) r'.coreBitmapUsed

/-- **Consistent job resources**: the hosts agree with their arrays, the groups cover the hosts, and there
    are core bitmaps. -/
structure Consistent (r : JobResources) (g : Nat) : Prop where
  hosts : HostsOk r
  groups : ∃ sockets cores reps, Covers r sockets cores reps g
  coreBitmap : r.coreBitmap ≠ none
  coreBitmapUsed : r.coreBitmapUsed ≠ none

/-- A bitmap whose text fits. -/
def Sendable (bitmap : Option Bitstr) : Prop := ∀ b ∈ bitmap, b.bits ≤ 2 ^ 31 - 32 ∧ TextFits b

theorem HostsOk.nhosts_pos (h : HostsOk r) : 0 < r.nhosts.toNat := by
  cases hcpus : r.cpus with
  | none => exact absurd hcpus h.cpus_present
  | some vals =>
    obtain ⟨hlen, hne⟩ := h.cpus vals hcpus
    rw [← hlen]
    exact length_pos_iff.2 hne

theorem pack_eq (bg : Bool) (h : HostsOk r) (hv : slurm23 ≤ version) :
    packJobResources bg (some r) version b =
      (packAll (.u32 r.nhosts :: hostsValues version r) b).bind fun b => if bg then some b else packGroups r b := by
  have hreq : ∀ b, pack (nodeReqValue version r.nodeReq) b = some (packNodeReq version r.nodeReq b) := by
    intro b
    unfold nodeReqValue packNodeReq
    split
    · rfl
    · rfl
  rw [packJobResources, if_pos hv]
  simp only [hostsValues, packAll_cons, hreq, pack32ArrayOf_eq h.cpuArrayReps,
    pack16ArrayOf_eq h.cpuArrayValue, pack16ArrayOf_eq h.cpus,
    pack16ArrayOf_eq h.cpusUsed, pack32ArrayOf_eq h.memoryAllocated,
    pack32ArrayOf_eq h.memoryUsed]
  simp only [pack, bind_some]
  cases packstr (r.nodes.map cString) (packNodeReq version r.nodeReq (pack32 r.ncpus (pack32 r.nhosts b)))
  · rfl
  · rfl

theorem length_wire_u16s (vals : List (BitVec 16)) : (wire (.u16s vals)).length = 4 + 2 * vals.length := by
  simp [wire, Nat.mul_comm]

theorem length_wire_u32s (vals : List (BitVec 32)) : (wire (.u32s vals)).length = 4 + 4 * vals.length := by
  simp [wire, Nat.mul_comm]

theorem length_hosts_le (h : HostsOk r) (hfit : HostsFit r) :
    ((hostsValues version r).flatMap wire).length ≤ 10 ^ 8 := by
  have hnodes : (strBytes (r.nodes.map cString)).length ≤ 16777216 := by
    rw [strBytes_cString h.nodes]
    cases hstr : r.nodes with
    | none => exact Nat.zero_le _
    | some s => exact hfit.nodes s hstr
  have hreq : (wire (nodeReqValue version r.nodeReq)).length ≤ 4 := by
    unfold nodeReqValue
    split
    · simp [wire]
    · simp [wire]
  have hcnt := hfit.cpuArrayCnt
  have hnhosts := hfit.nhosts
  have h1 := h.cpuArrayReps.length_getD_le
  have h2 := h.cpuArrayValue.length_getD_le
  have h3 := h.cpus.length_getD_le
  have h4 := h.cpusUsed.length_getD_le
  have h₅ := h.memoryAllocated.length_getD_le
  have h₆ := h.memoryUsed.length_getD_le
  have hncpus : (wire (.u32 r.ncpus)).length = 4 := length_beBytes 4 _
  have hstr : (wire (.str .xmalloc (r.nodes.map cString))).length = 4 + (strBytes (r.nodes.map cString)).length := by
    rw [wire, length_append, length_beBytes]
  simp only [hostsValues, flatMap_cons, flatMap_nil, append_nil, length_append,
    length_wire_u16s, length_wire_u32s, hncpus, hstr]
  omega

theorem length_groups_le (hg : Covers r sockets cores reps g) (hfit : HostsFit r) :
    ((groupsValues sockets cores reps g).flatMap wire).length ≤ 10 ^ 8 := by
  have hle := hg.le_nhosts
  have hnhosts := hfit.nhosts
  simp only [groupsValues, flatMap_cons, flatMap_nil, append_nil, length_append,
    length_wire_u16s, length_wire_u32s, length_take]
  omega

/-- The record when `nhosts` has been read. -/
def started (nhosts : BitVec 32) : Work := ⟨{ createJobResources with nhosts := nhosts }, 0⟩

section

variable (hroom : maxPackStrLen ≤ room) (hv : slurm23 ≤ version)
include hroom hv

/-- **The bytes of job resources**, and what they are taken as. -/
theorem packed_and_fills (bg : Bool)
    (h : Consistent r g) (hfit : HostsFit r) (hreq : slurm25 ≤ version ∨ r.nodeReq.toNat < 100)
    (hcore : Sendable r.coreBitmap) (hused : Sendable r.coreBitmapUsed) (hb : Ok b) :
    ∃ b' rest w, packJobResources bg (some r) version b = some b' ∧
      Packed b b' (beBytes 4 r.nhosts.toNat ++ rest) ∧ rest.length ≤ 10 ^ 9 ∧
      Fills (fields room bg version) (started r.nhosts) rest w ∧ Delivered bg g r w.toJobResources := by
  obtain ⟨sockets, cores, reps, hg⟩ := h.groups
  obtain ⟨core, hcoreEq⟩ := ne_none_iff_exists'.1 h.coreBitmap
  obtain ⟨used, husedEq⟩ := ne_none_iff_exists'.1 h.coreBitmapUsed
  have hhosts := h.hosts.nhosts_pos
  have hvals : ∀ val ∈ Value.u32 r.nhosts :: hostsValues version r, val.Fits room :=
    hostsValues_fit hroom h.hosts hfit
  obtain ⟨c, hc, hpc⟩ := packed_packAll hvals hb
  have hfills : Fills (unpackHosts room version) (started r.nhosts) _ _ :=
    fills_hosts hroom h.hosts hfit hreq rfl
  have hwire : (Value.u32 r.nhosts :: hostsValues version r).flatMap wire =
      beBytes 4 r.nhosts.toNat ++ (hostsValues version r).flatMap wire := rfl
  have hlength : ((hostsValues version r).flatMap wire).length ≤ _ := length_hosts_le h.hosts hfit
  rw [hwire] at hpc
  rw [pack_eq bg h.hosts hv, hc, bind_some]
  cases bg with
  | true =>
    refine ⟨c, _, withHosts r (started r.nhosts), rfl, hpc, by omega, ?_, ?_⟩
    · have hnone : Fills (.done : Filler Work) (withHosts r (started r.nhosts)) [] _ := takes_ret _
      have hboth := hfills.seq hnone
      rwa [append_nil] at hboth
    · exact ⟨rfl, .none, .none⟩
  | false =>
    obtain ⟨hsize, htext⟩ := hcore core hcoreEq
    obtain ⟨str, t, t', rc, hfmt, hstr, hlen, halloc, hunfmt, hbits, htest⟩ := unfmt_fmt hsize htext
    obtain ⟨hsize', htext'⟩ := hused used husedEq
    obtain ⟨str', u, u', rc', hfmt', hstr', hlen', halloc', hunfmt', hbits', htest'⟩ :=
      unfmt_fmt hsize' htext'
    have hgfit : ∀ val ∈ groupsValues sockets cores reps g, val.Fits room := by
      have hmax : 16777216 ≤ room := hroom
      have hle := hg.le_nhosts
      have hfew := hfit.nhosts
      intro val hval
      simp only [groupsValues, mem_cons, not_mem_nil, or_false] at hval
      rcases hval with rfl | rfl | rfl
      · exact ⟨by rw [length_take]; omega, by rw [length_take]; omega⟩
      · exact ⟨by rw [length_take]; omega, by rw [length_take]; omega⟩
      · exact ⟨by rw [length_take]; omega, by rw [length_take]; omega⟩
    obtain ⟨d, hd, hpd⟩ := packed_packAll hgfit hpc.ok
    obtain ⟨e, he, hpe⟩ := packed_packBitStr hpd.ok hfmt hlen
    obtain ⟨b', hb', hpb'⟩ := packed_packBitStr hpe.ok hfmt' hlen'
    have htmp : tmpLen ≤ room := le_trans (by decide) hroom
    have htake := takes_unpackBitStr htmp hstr hlen core.bits_lt halloc hunfmt
    have htake' := takes_unpackBitStr htmp hstr' hlen' used.bits_lt halloc' hunfmt'
    have hlength' := length_groups_le hg hfit
    refine ⟨b', _, _, ?_, ?_, ?_, hfills.seq (fills_groups hg hroom hhosts hfit.nhosts htake htake'), ?_⟩
    · show packGroups r c = some b'
      rw [packGroups_eq hg hhosts hcoreEq husedEq, hd, bind_some, he, bind_some, hb']
    · have hall := hpc.trans (hpd.trans (hpe.trans hpb'))
      rwa [append_assoc] at hall
    · have htmp : tmpLen = 65534 := rfl
      simp only [length_append, length_wireBits]
      omega
    · constructor
      · show _ = _
        simp only [unlessBg, hg.sockets_eq, hg.cores_eq, hg.reps_eq]
        rfl
      · rw [unlessBg, if_neg (by decide), hcoreEq]
        exact .some ⟨hbits, htest⟩
      · rw [unlessBg, if_neg (by decide), husedEq]
        exact .some ⟨hbits', htest'⟩

/-! ## The whole function -/

theorem unpack_started (bg : Bool)
    (hn : unpack32 i = .ok n j) (hne : n ≠ noVal) :
    unpackJobResources room bg version i =
      match fields room bg version (started (BitVec.ofNat 32 n)) j with
      | .done w k => .success (some w.toJobResources) k
      | .stopped _ k => .error none k
      | .abort => .abort
      | .overread => .overread := by
  have hsize : sizeofJobResources ≤ room := le_trans (by decide) hroom
  rw [unpackJobResources, if_pos hv, hn]
  dsimp only
  rw [if_neg hne, seq, into, intoOr, xmalloc_eq hsize]
  rfl

variable {rest : List Byte}

theorem unpack_written {bg : Bool} (hne : r.nhosts.toNat ≠ noVal)
    (hfills : Fills (fields room bg version) (started r.nhosts) rest w) (hpos : i.pos ≤ i.data.length)
    (hahead : beBytes 4 r.nhosts.toNat ++ rest <+: i.ahead) :
    unpackJobResources room bg version i =
      .success (some w.toJobResources) (i.advance (beBytes 4 r.nhosts.toNat ++ rest).length) := by
  have hn : Reads unpack32 (beBytes 4 r.nhosts.toNat) r.nhosts.toNat :=
    reads_unpackFixed r.nhosts.isLt
  have hread := hn.bind (f := fun _ => (fields room bg version).reader (started r.nhosts)) hfills.reads
    i hpos hahead
  obtain ⟨m, k, hm, hfields⟩ := bind_eq_ok hread
  have hm' := hn i hpos ((prefix_append _ _).trans hahead)
  obtain ⟨rfl, rfl⟩ := Outcome.ok.inj (hm.symm.trans hm')
  rw [unpack_started hroom hv bg hm hne, BitVec.ofNat_toNat, BitVec.setWidth_eq, reader_eq_ok.1 hfields]

theorem unpack_cut {bg : Bool} (hne : r.nhosts.toNat ≠ noVal)
    (hfills : Fills (fields room bg version) (started r.nhosts) rest w) (hi : i.pos = 0)
    (hcut : i.data <+: beBytes 4 r.nhosts.toNat ++ rest) (hshort : i.data ≠ beBytes 4 r.nhosts.toNat ++ rest)
    (hfour : 4 ≤ i.data.length) : ∃ j, unpackJobResources room bg version i = .error none j := by
  have hahead : i.ahead = i.data := by rw [Input.ahead, hi, drop_zero]
  have hhead : beBytes 4 r.nhosts.toNat <+: i.data :=
    prefix_of_prefix_length_le (prefix_append _ _) hcut (by rw [length_beBytes]; exact hfour)
  have hm : unpack32 i = .ok r.nhosts.toNat (i.advance 4) := by
    have h := reads_unpackFixed r.nhosts.isLt i (by omega) (by rw [hahead]; exact hhead)
    rwa [length_beBytes] at h
  obtain ⟨tail, htail⟩ := hhead
  rw [← htail] at hcut hshort
  have hleft : (i.advance 4).ahead = tail := by
    rw [ahead_advance, hahead, ← htail, drop_left' (length_beBytes 4 _)]
  obtain ⟨k, hk⟩ := hfills.short (i.advance 4) (show i.pos + 4 ≤ i.data.length by omega)
    (by rw [hleft]; exact (prefix_append_right_inj _).1 hcut)
    (by rw [hleft]; rintro rfl; exact hshort rfl)
  obtain ⟨v, hv'⟩ := reader_eq_error.1 hk
  refine ⟨k, ?_⟩
  rw [unpack_started hroom hv bg hm hne, BitVec.ofNat_toNat, BitVec.setWidth_eq, hv']

end

theorem overflows_of_packed (hb : b.pos = 0) (hover : b.overflows = 0)
    (hp : Packed b b' (beBytes 4 n ++ rest)) (hlen : rest.length ≤ 10 ^ 9) : b'.overflows = 0 := by
  rw [← hover]
  apply hp.room
  rw [hb, length_append, length_beBytes]
  simp only [maxBufSize, bufSize, maxPackMemLen]
  omega

/-- **Job resources on the wire.**  At a supported version, consistent job resources within the limits of
    the packers are delivered: packed into a new buffer and unpacked from its beginning, they come
    back with all that is sent.  (`node_req` below version 2.5: values below 100; core bitmaps: texts
    that fit.)  If the bytes end anywhere behind the first number, the function returns `SLURM_ERROR`
    with `NULL`, and has freed the structure it had made.  And `NULL` comes back as `NULL`. -/
theorem job_resources_wire (bg : Bool) (hroom : maxPackStrLen ≤ room) (hv : slurm23 ≤ version)
    {size : Nat} (hinit : initBuf size = some b) :
    (∀ r g, Consistent r g → HostsFit r → slurm25 ≤ version ∨ r.nodeReq.toNat < 100 →
      Sendable r.coreBitmap → Sendable r.coreBitmapUsed → ∃ b',
        packJobResources bg (some r) version b = some b' ∧ b'.overflows = 0 ∧ ∀ i : Input, i.pos = 0 →
          (b'.data.take b'.pos <+: i.data → ∃ r', unpackJobResources room bg version i =
            .success (some r') (i.advance b'.pos) ∧ Delivered bg g r r') ∧
          (i.data <+: b'.data.take b'.pos → i.data ≠ b'.data.take b'.pos → 4 ≤ i.data.length →
            ∃ j, unpackJobResources room bg version i = .error none j)) ∧
    ∃ b', packJobResources bg none version b = some b' ∧ b'.overflows = 0 ∧ ∀ i : Input, i.pos = 0 →
      b'.data.take b'.pos <+: i.data →
        unpackJobResources room bg version i = .success none (i.advance b'.pos) := by
  obtain ⟨hok, hb, hover⟩ := ok_initBuf hinit
  constructor
  · intro r g h hfit hreq hcore hused
    obtain ⟨b', rest, w, hb', hp, hlen, hfills, hdel⟩ :=
      packed_and_fills hroom hv bg h hfit hreq hcore hused hok
    have hfine := overflows_of_packed hb hover hp hlen
    have hwritten := hp.written (hfine.trans hover.symm)
    rw [hb, take_zero, nil_append] at hwritten
    refine ⟨b', hb', hfine, fun i hi => ⟨fun hdata => ?_, fun hcut hshort hfour => ?_⟩⟩
    · obtain ⟨hend, hahead⟩ := ahead_of_packed hb hover hp hfine hi hdata
      refine ⟨w.toJobResources, ?_, hdel⟩
      rw [hend]
      exact unpack_written hroom hv h.hosts.nhosts_ne hfills (by omega) hahead
    · rw [hwritten] at hcut hshort
      exact unpack_cut hroom hv h.hosts.nhosts_ne hfills hi hcut hshort hfour
  · have hp : Packed b (pack32 (BitVec.ofNat 32 noVal) b) (beBytes 4 noVal) := by
      apply packed_packFixed hok
      decide
    have hfine : (pack32 (BitVec.ofNat 32 noVal) b).overflows = 0 := by
      rw [hp.room (by rw [hb]; decide), hover]
    refine ⟨_, by rw [packJobResources, if_pos hv], hfine, fun i hi hdata => ?_⟩
    obtain ⟨hend, hahead⟩ := ahead_of_packed hb hover hp hfine hi hdata
    have hn : unpack32 i = _ := reads_unpackFixed (by decide) i (by omega) hahead
    rw [unpackJobResources, if_pos hv, hn, hend]
    rfl

/-- One host with one socket of two cores, the first of them used; it is the third of four nodes. -/
def oneHost : JobResources where
  coreBitmap := some (oneWord 2 0b11)
  coreBitmapUsed := some (oneWord 2 0b01)
  cpuArrayCnt := 1
  cpuArrayValue := some [2]
  cpuArrayReps := some [1]
  cpus := some [2]
  cpusUsed := some [1]
  coresPerSocket := some [2]
  memoryAllocated := none
  memoryUsed := none
  nhosts := 1
  nodeBitmap := some (oneWord 4 0b0100)
  nodeReq := 1
  nodes := some [110, 50, 0]
  ncpus := 2
  sockCoreRepCount := some [1]
  socketsPerNode := some [1]

theorem oneHost_consistent : Consistent oneHost 1 ∧ HostsFit oneHost ∧
    Sendable oneHost.coreBitmap ∧ Sendable oneHost.coreBitmapUsed := by
  have hsized : ∀ {α : Type} (x : α), Sized 1 (some [x]) := by
    intro α x vals hvals
    cases hvals
    exact ⟨rfl, by simp⟩
  have hnone : ∀ {α : Type} {n : Nat}, Sized n (none : Option (List α)) := by
    intro α n vals hvals
    cases hvals
  have hhosts : HostsOk oneHost := by
    constructor
    · decide
    · decide
    · exact hsized 1
    · exact hsized 2
    · decide
    · exact hsized 2
    · decide
    · exact hsized 1
    · exact hnone
    · exact hnone
  have hcovers : Covers oneHost [1] [2] [1] 1 :=
    ⟨rfl, rfl, rfl, le_rfl, le_rfl, le_rfl, by simp, rfl⟩
  refine ⟨⟨hhosts, ⟨_, _, _, hcovers⟩, by decide, by decide⟩, ⟨by decide, by decide, by decide⟩, ?_, ?_⟩
  · intro b hb
    cases hb
    exact ⟨by decide, by decide⟩
  · intro b hb
    cases hb
    exact ⟨by decide, by decide⟩

theorem job_resources_wire_oneHost : ∃ b b' r', initBuf 0 = some b ∧
    packJobResources false (some oneHost) 0x1a00 b = some b' ∧ b'.overflows = 0 ∧
    unpackJobResources (2 ^ 31 - 1) false 0x1a00 ⟨b'.data, 0⟩ = .success (some r') ⟨b'.data, b'.pos⟩ ∧
    Delivered false 1 oneHost r' := by
  obtain ⟨h, hfit, hcore, hused⟩ := oneHost_consistent
  obtain ⟨b, hinit⟩ : ∃ b, initBuf 0 = some b := ⟨_, rfl⟩
  have hmain := @job_resources_wire (2 ^ 31 - 1) 0x1a00 b false (by decide) (by decide) 0 hinit
  obtain ⟨b', hb', hfine, hi⟩ := hmain.1 oneHost 1 h hfit (.inl (by decide)) hcore hused
  obtain ⟨r', hr', hdel⟩ := (hi ⟨b'.data, 0⟩ rfl).1 (List.take_prefix _ _)
  refine ⟨b, b', r', hinit, hb', hfine, ?_, hdel⟩
  rw [hr', Input.advance, Nat.zero_add]

/-- **The node bitmap is not sent**, and comes back as `NULL`. -/
theorem node_bitmap_not_sent : Consistent oneHost 1 ∧ ∃ b b' r', initBuf 0 = some b ∧
    packJobResources false (some oneHost) 0x1a00 b = some b' ∧ b'.overflows = 0 ∧
    unpackJobResources (2 ^ 31 - 1) false 0x1a00 ⟨b'.data, 0⟩ = .success (some r') ⟨b'.data, b'.pos⟩ ∧
    r'.nodeBitmap ≠ oneHost.nodeBitmap := by
  obtain ⟨h, hfit, hcore, hused⟩ := oneHost_consistent
  obtain ⟨b, hinit⟩ : ∃ b, initBuf 0 = some b := ⟨_, rfl⟩
  obtain ⟨hok, hb, hover⟩ := ok_initBuf hinit
  obtain ⟨b', rest, w, hb', hp, hlen, hfills, hdel⟩ := @packed_and_fills (2 ^ 31 - 1) 1 0x1a00 oneHost b
    (by decide) (by decide) false h hfit (.inl (by decide)) hcore hused hok
  have hfine := overflows_of_packed hb hover hp hlen
  obtain ⟨hend, hahead⟩ := ahead_of_packed (i := ⟨b'.data, 0⟩) hb hover hp hfine rfl (List.take_prefix _ _)
  have hr' := unpack_written (by decide) (by decide) h.hosts.nhosts_ne hfills (Nat.zero_le _) hahead
  rw [← hend, Input.advance, Nat.zero_add] at hr'
  refine ⟨h, b, b', w.toJobResources, hinit, hb', hfine, hr', ?_⟩
  rw [hdel.fields]
  simp [oneHost]

end Slurmpp.JobRes
