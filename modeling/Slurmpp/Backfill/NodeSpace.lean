/-
  The backfill scheduler's node-space map (`plugins/sched/backfill/backfill.c`).

  The map is an ARRAY of records `(begin_time, end_time, avail_bitmap, next)` linked through `next` from index
  `0` on, ended by a `next` of `0`.  `_add_reservation` splits records and clears the reserved nodes.

  1. **The code** — `addReservation` and `testResvOverlap`, loop by loop.  A bitmap of `w` nodes is a `BitVec w`.
  2. **The list it represents** — `segments`, and the same two loops on that list: `segments_addReservation` and
     `testResvOverlap_eq` say that the array code computes the list code, whatever the map holds.
-/
import Slurmpp.Lib.Linked
import Slurmpp.Lib.Timeline

namespace Slurmpp.Backfill

open Slurmpp List

/-- One record of the map, `node_space_map_t`. -/
structure NodeSpaceMap (w : ℕ) where
  beginTime : ℕ
  endTime : ℕ
  availBitmap : BitVec w
  /-- The next record by time, zero for the last one. -/
  next : ℕ
  deriving DecidableEq, Repr

/-- The records in use, `node_space[0 .. node_space_recs - 1]`. -/
abbrev NodeSpace (w : ℕ) := List (NodeSpaceMap w)

variable {w : ℕ}

/-! ## `_add_reservation` -/

/-- Times are rounded down to a multiple of `backfill_resolution`. -/
def roundDown (resolution t : ℕ) : ℕ := t / resolution * resolution

/-- Splits the record `r`, found at index `j`, at time `x`: the new record at the end of the
    array gets `[x, r.endTime)` and is linked in behind index `j`. -/
def splitRecord (ns : NodeSpace w) (j : ℕ) (r : NodeSpaceMap w) (x : ℕ) : NodeSpace w :=
  ns.set j { r with endTime := x, next := ns.length } ++
    [{ beginTime := x, endTime := r.endTime, availBitmap := r.availBitmap, next := r.next }]

/-- The end entry: only the record right after the start entry is looked at. -/
def insertEnd (endReserve : ℕ) (ns : NodeSpace w) (j : ℕ) : NodeSpace w :=
  if j = 0 then ns
  else match ns[j]? with
    | none => ns
    | some r => if endReserve < r.endTime then splitRecord ns j r endReserve else ns

/-- The first loop: find where the reservation starts, insert the start and the end entry. -/
def placeFrom (startTime endReserve : ℕ) (ns : NodeSpace w) : ℕ → ℕ → NodeSpace w
  | 0, _ => ns
  | fuel + 1, j =>
    match ns[j]? with
    | none => ns
    | some r =>
      if startTime < r.endTime then
        insertEnd endReserve (splitRecord ns j r startTime) ns.length
      else if r.endTime = startTime then
        -- no need to insert a new start entry record
        insertEnd endReserve ns r.next
      else if r.next = 0 then ns
      else placeFrom startTime endReserve ns fuel r.next

/-- The second loop: `bit_and` every record that lies inside the reservation. -/
def maskFrom (startTime endReserve : ℕ) (mask : BitVec w) :
    NodeSpace w → ℕ → ℕ → NodeSpace w
  | ns, 0, _ => ns
  | ns, fuel + 1, j =>
    match ns[j]? with
    | none => ns
    | some r =>
      let ns' := if startTime ≤ r.beginTime ∧ r.endTime ≤ endReserve then
        ns.set j { r with availBitmap := r.availBitmap &&& mask } else ns
      if endReserve ≤ r.beginTime then ns'
      else if r.next = 0 then ns'
      else maskFrom startTime endReserve mask ns' fuel r.next

/-- **`_add_reservation`**: create a reservation for a job in the future.  `resBitmap` has the
    reserved nodes CLEARED. -/
def addReservation (resolution startTime endReserve : ℕ) (resBitmap : BitVec w) (ns : NodeSpace w) : NodeSpace w :=
  let startTime := roundDown resolution startTime
  let endReserve := roundDown resolution endReserve
  let ns := placeFrom startTime endReserve ns ns.length 0
  maskFrom startTime endReserve resBitmap ns ns.length 0

/-! ## `_test_resv_overlap` -/

/-- Whether every bit of `b1` is set in `b2` (`bit_super_set`). -/
def bitSuperSet (b1 b2 : BitVec w) : Bool := b1 == b1 &&& b2

/-- The loop of `_test_resv_overlap`. -/
def overlapFrom (useBitmap : BitVec w) (startTime endReserve : ℕ) (ns : NodeSpace w) :
    ℕ → ℕ → Bool
  | 0, _ => false
  | fuel + 1, j =>
    match ns[j]? with
    | none => false
    | some r =>
      if startTime < r.endTime ∧ r.beginTime < endReserve ∧ bitSuperSet useBitmap r.availBitmap = false then true
      else if r.next = 0 then false
      else overlapFrom useBitmap startTime endReserve ns fuel r.next

/-- **`_test_resv_overlap`**: does the job overlap a reservation made before? -/
def testResvOverlap (ns : NodeSpace w) (useBitmap : BitVec w) (startTime endReserve : ℕ) : Bool :=
  overlapFrom useBitmap startTime endReserve ns ns.length 0

/-! ## The same loops on the list of segments -/

/-- What a record says: these nodes are available on `[beginTime, endTime)`. -/
def NodeSpaceMap.toSeg (r : NodeSpaceMap w) : Seg ℕ (BitVec w) :=
  ⟨r.beginTime, r.endTime, r.availBitmap⟩

/-- The records reachable from index `0`, as segments. -/
def segments (ns : NodeSpace w) : List (Seg ℕ (BitVec w)) :=
  (follow NodeSpaceMap.next ns ns.length 0).map NodeSpaceMap.toSeg

def insertEndSegs (e : ℕ) : List (Seg ℕ (BitVec w)) → List (Seg ℕ (BitVec w))
  | [] => []
  | r :: l => if e < r.hi then ⟨r.lo, e, r.val⟩ :: ⟨e, r.hi, r.val⟩ :: l else r :: l

def placeSegs (s e : ℕ) : List (Seg ℕ (BitVec w)) → List (Seg ℕ (BitVec w))
  | [] => []
  | r :: l =>
    if s < r.hi then ⟨r.lo, s, r.val⟩ :: insertEndSegs e (⟨s, r.hi, r.val⟩ :: l)
    else if r.hi = s then r :: insertEndSegs e l
    else r :: placeSegs s e l

def maskSegs (s e : ℕ) (mask : BitVec w) : List (Seg ℕ (BitVec w)) → List (Seg ℕ (BitVec w))
  | [] => []
  | r :: l =>
    let r' := if s ≤ r.lo ∧ r.hi ≤ e then { r with val := r.val &&& mask } else r
    if e ≤ r.lo then r' :: l else r' :: maskSegs s e mask l

def overlapSegs (use : BitVec w) (s e : ℕ) (l : List (Seg ℕ (BitVec w))) : Bool :=
  l.any fun r => decide (s < r.hi ∧ r.lo < e ∧ bitSuperSet use r.val = false)

/-! ## The array code refines the list code -/

/-- The map is a proper linked list: the walk from index `0` ends and meets no index twice. -/
def WellLinked (ns : NodeSpace w) : Prop :=
  ∃ is rs, Linked NodeSpaceMap.next ns 0 is rs ∧ is.Nodup

variable {ns : NodeSpace w} {rs : List (NodeSpaceMap w)} {is : List ℕ}

theorem segments_eq (h : Linked NodeSpaceMap.next ns 0 is rs) (hnd : is.Nodup) :
    segments ns = rs.map NodeSpaceMap.toSeg := by
  rw [segments, h.follow_eq (h.length_le hnd)]

/-- The array `ns'` has been obtained from `ns` by rewriting the walk from `j`, which went over
    the indices `is`, into one that meets the segments `l`; indices off that walk are untouched
    and new ones are fresh. -/
def Rewrites (ns ns' : NodeSpace w) (j : ℕ) (is : List ℕ) (l : List (Seg ℕ (BitVec w))) : Prop :=
  ∃ is' rs', Linked NodeSpaceMap.next ns' j is' rs' ∧ is'.Nodup ∧
    rs'.map NodeSpaceMap.toSeg = l ∧ (∀ k ∈ is', k ∈ is ∨ ns.length ≤ k) ∧
    ∀ k, k < ns.length → k ∉ is → ns'[k]? = ns[k]?

variable {j e s : ℕ}

theorem Rewrites.refl (h : Linked NodeSpaceMap.next ns j is rs) (hnd : is.Nodup) :
    Rewrites ns ns j is (rs.map NodeSpaceMap.toSeg) :=
  ⟨is, rs, h, hnd, rfl, fun _ hk => Or.inl hk, fun _ _ _ => rfl⟩

variable {r : NodeSpaceMap w}

theorem Rewrites.link {ns' : NodeSpace w}
    {l : List (Seg ℕ (BitVec w))} (hr : ns[j]? = some r) (h0 : r.next ≠ 0) (hj : j ∉ is)
    (h : Rewrites ns ns' r.next is l) : Rewrites ns ns' j (j :: is) (r.toSeg :: l) := by
  obtain ⟨is', rs', hl, hnd, hseg, hnew, hframe⟩ := h
  have hlt : j < ns.length := (List.getElem?_eq_some_iff.mp hr).1
  refine ⟨j :: is', r :: rs', .link ((hframe j hlt hj).trans hr) h0 hl, ?_, ?_, ?_, ?_⟩
  · refine nodup_cons.mpr ⟨fun hmem => ?_, hnd⟩
    rcases hnew j hmem with h | h
    · exact hj h
    · omega
  · rw [map_cons, hseg]
  · intro k hk
    rcases mem_cons.mp hk with rfl | hk
    · exact Or.inl mem_cons_self
    · exact (hnew k hk).imp_left (mem_cons_of_mem _)
  · intro k hk hkis
    exact hframe k hk fun hmem => hkis (mem_cons_of_mem _ hmem)

theorem splitRecord_linked {x : ℕ} (h : Linked NodeSpaceMap.next ns j (j :: is) (r :: rs)) (hnd : (j :: is).Nodup) :
    Linked NodeSpaceMap.next (splitRecord ns j r x) j (j :: ns.length :: is)
      ({ r with endTime := x, next := ns.length } ::
        { beginTime := x, endTime := r.endTime, availBitmap := r.availBitmap, next := r.next } ::
        rs) ∧
    (j :: ns.length :: is).Nodup ∧ ∀ k, k < ns.length → k ≠ j → (splitRecord ns j r x)[k]? = ns[k]? := by
  have hfresh : ∀ i ∈ j :: is, i ≠ ns.length := fun i hi => (h.lt_length i hi).ne
  refine ⟨h.insert (nodup_cons.mp hnd).1 rfl rfl, ?_, ?_⟩
  · obtain ⟨hj, his⟩ := nodup_cons.mp hnd
    refine nodup_cons.mpr ⟨?_, nodup_cons.mpr ⟨?_, his⟩⟩
    · intro hmem
      rcases mem_cons.mp hmem with h' | h'
      · exact hfresh j mem_cons_self h'
      · exact hj h'
    · exact fun hmem => hfresh _ (mem_cons_of_mem _ hmem) rfl
  · intro k hk hkj
    rw [splitRecord, getElem?_append_left (by simpa using hk), getElem?_set_ne hkj.symm]

theorem mem_of_mem_split {k n : ℕ} (hk : k ∈ j :: n :: is) : k ∈ j :: is ∨ n ≤ k := by
  rw [mem_cons, mem_cons] at hk
  rcases hk with rfl | rfl | hk
  · exact .inl mem_cons_self
  · exact .inr le_rfl
  · exact .inl (mem_cons_of_mem _ hk)

theorem insertEnd_rewrites (hj0 : j ≠ 0) (h : Linked NodeSpaceMap.next ns j is rs) (hnd : is.Nodup) :
    Rewrites ns (insertEnd e ns j) j is (insertEndSegs e (rs.map NodeSpaceMap.toSeg)) := by
  obtain ⟨r, is, rs, rfl, rfl, hr, -⟩ := h.head
  rw [insertEnd, if_neg hj0, hr, map_cons, insertEndSegs]
  by_cases he : e < r.endTime
  · obtain ⟨hl, hnd', hframe⟩ := splitRecord_linked h hnd
    simp only [if_pos he]
    rw [if_pos (show e < r.toSeg.hi from he)]
    exact ⟨_, _, hl, hnd', rfl, fun k => mem_of_mem_split,
      fun k hk hkis => hframe k hk fun hkj => hkis (hkj ▸ mem_cons_self)⟩
  · simp only [if_neg he]
    rw [if_neg (show ¬ e < r.toSeg.hi from he)]
    exact Rewrites.refl h hnd

theorem startEntry_rewrites (h : Linked NodeSpaceMap.next ns j (j :: is) (r :: rs)) (hnd : (j :: is).Nodup) :
    Rewrites ns (insertEnd e (splitRecord ns j r s) ns.length) j (j :: is)
      (⟨r.beginTime, s, r.availBitmap⟩ ::
        insertEndSegs e (⟨s, r.endTime, r.availBitmap⟩ :: rs.map NodeSpaceMap.toSeg)) := by
  obtain ⟨hl, hnd1, hframe1⟩ := splitRecord_linked h hnd
  have hlen : (splitRecord ns j r s).length = ns.length + 1 := by simp [splitRecord]
  have hpos : ns.length ≠ 0 := (Nat.zero_lt_of_lt (h.lt_length j mem_cons_self)).ne'
  obtain ⟨hj, hnd2⟩ := nodup_cons.mp hnd1
  cases hl with
  | link hr h0 ht =>
    obtain ⟨is', rs', hl', hnd', hseg, hnew, hframe⟩ :=
      Rewrites.link hr h0 hj (insertEnd_rewrites hpos ht hnd2)
    refine ⟨is', rs', hl', hnd', hseg, ?_, ?_⟩
    · intro k hk
      rcases hnew k hk with hk | hk
      · exact mem_of_mem_split hk
      · exact Or.inr (by omega)
    · intro k hk hkis
      have hkj : k ≠ j := fun hkj => hkis (hkj ▸ mem_cons_self)
      have hk2 : k ∉ j :: ns.length :: is := fun hmem => (mem_of_mem_split hmem).elim hkis (by omega)
      rw [hframe k (by omega) hk2, hframe1 k hk hkj]

/-- **The first loop.** -/
theorem placeFrom_rewrites {fuel : ℕ} (h : Linked NodeSpaceMap.next ns j is rs) (hnd : is.Nodup)
    (hf : is.length ≤ fuel) :
    Rewrites ns (placeFrom s e ns fuel j) j is (placeSegs s e (rs.map NodeSpaceMap.toSeg)) := by
  induction fuel generalizing j is rs with
  | zero => exact absurd h.pos (Nat.not_lt.2 hf)
  | succ fuel ih =>
    obtain ⟨r, is, rs, rfl, rfl, hr, hrest⟩ := h.head
    obtain ⟨hj, hnd'⟩ := nodup_cons.mp hnd
    simp only [placeFrom, hr, map_cons, placeSegs]
    by_cases hs : s < r.endTime
    · rw [if_pos hs, if_pos (show s < r.toSeg.hi from hs)]
      exact startEntry_rewrites h hnd
    · rw [if_neg hs, if_neg (show ¬ s < r.toSeg.hi from hs)]
      by_cases heq : r.endTime = s
      · rw [if_pos heq, if_pos (show r.toSeg.hi = s from heq)]
        rcases hrest with ⟨h0, rfl⟩ | ⟨h0, ht⟩
        · rw [h0]
          exact Rewrites.refl h hnd
        · exact Rewrites.link hr h0 hj (insertEnd_rewrites h0 ht hnd')
      · rw [if_neg heq, if_neg (show ¬ r.toSeg.hi = s from heq)]
        rcases hrest with ⟨h0, rfl⟩ | ⟨h0, ht⟩
        · rw [if_pos h0]
          exact Rewrites.refl h hnd
        · rw [if_neg h0]
          exact Rewrites.link hr h0 hj (ih ht hnd' (by simpa using hf))

/-- What the second loop does to the record it stands on. -/
def maskRecord (s e : ℕ) (mask : BitVec w) (r : NodeSpaceMap w) : NodeSpaceMap w :=
  if s ≤ r.beginTime ∧ r.endTime ≤ e then { r with availBitmap := r.availBitmap &&& mask } else r

@[simp] theorem maskRecord_next (mask : BitVec w) : (maskRecord s e mask r).next = r.next := by
  unfold maskRecord; split <;> rfl

theorem maskRecord_toSeg (mask : BitVec w) :
    (maskRecord s e mask r).toSeg = if s ≤ r.toSeg.lo ∧ r.toSeg.hi ≤ e then
      { r.toSeg with val := r.toSeg.val &&& mask } else r.toSeg := by
  unfold maskRecord
  by_cases h : s ≤ r.beginTime ∧ r.endTime ≤ e
  · rw [if_pos h, if_pos (show s ≤ r.toSeg.lo ∧ r.toSeg.hi ≤ e from h)]; rfl
  · rw [if_neg h, if_neg (show ¬ (s ≤ r.toSeg.lo ∧ r.toSeg.hi ≤ e) from h)]

theorem maskFrom_succ {mask : BitVec w} {fuel : ℕ} (hr : ns[j]? = some r) :
    maskFrom s e mask ns (fuel + 1) j =
      if e ≤ r.beginTime ∨ r.next = 0 then ns.set j (maskRecord s e mask r)
      else maskFrom s e mask (ns.set j (maskRecord s e mask r)) fuel r.next := by
  have hset : (if s ≤ r.beginTime ∧ r.endTime ≤ e then
      ns.set j { r with availBitmap := r.availBitmap &&& mask } else ns) =
      ns.set j (maskRecord s e mask r) := by
    unfold maskRecord
    split
    · rfl
    · obtain ⟨hlt, rfl⟩ := List.getElem?_eq_some_iff.mp hr
      exact (List.set_getElem_self hlt).symm
  rw [maskFrom, hr]
  simp only [hset]
  by_cases he : e ≤ r.beginTime
  · rw [if_pos he, if_pos (Or.inl he)]
  · by_cases h0 : r.next = 0
    · rw [if_neg he, if_pos h0, if_pos (Or.inr h0)]
    · rw [if_neg he, if_neg h0, if_neg (by simp [he, h0])]

/-- **The second loop**: it writes bitmaps in place, so the links are those it found. -/
theorem maskFrom_linked (mask : BitVec w) {fuel : ℕ} (h : Linked NodeSpaceMap.next ns j is rs)
    (hnd : is.Nodup) (hf : is.length ≤ fuel) : ∃ rs', Linked NodeSpaceMap.next (maskFrom s e mask ns fuel j) j is rs' ∧
      rs'.map NodeSpaceMap.toSeg = maskSegs s e mask (rs.map NodeSpaceMap.toSeg) ∧
      ∀ k, k ∉ is → (maskFrom s e mask ns fuel j)[k]? = ns[k]? := by
  induction fuel generalizing ns j is rs with
  | zero => exact absurd h.pos (Nat.not_lt.2 hf)
  | succ fuel ih =>
    obtain ⟨r, is, rs, rfl, rfl, hr, hrest⟩ := h.head
    obtain ⟨hj, hnd'⟩ := nodup_cons.mp hnd
    have hkeep : ∀ k ∉ j :: is, (ns.set j (maskRecord s e mask r))[k]? = ns[k]? :=
      fun k hk => getElem?_set_ne (by rintro rfl; exact hk mem_cons_self)
    have hset : Linked NodeSpaceMap.next (ns.set j (maskRecord s e mask r)) j (j :: is)
        (maskRecord s e mask r :: rs) := h.set hj (by simp)
    rw [maskFrom_succ hr, map_cons, maskSegs]
    simp only [← maskRecord_toSeg]
    by_cases he : e ≤ r.beginTime
    · rw [if_pos (Or.inl he), if_pos (show e ≤ r.toSeg.lo from he)]
      exact ⟨_, hset, by rw [map_cons], hkeep⟩
    · rw [if_neg (show ¬ e ≤ r.toSeg.lo from he)]
      rcases hrest with ⟨h0, rfl⟩ | ⟨h0, ht⟩
      · rw [if_pos (Or.inr h0)]
        exact ⟨_, hset, rfl, hkeep⟩
      · rw [if_neg (by simp [he, h0])]
        obtain ⟨rs', hl', hseg, hframe⟩ :=
          ih (ht.set_of_not_mem (maskRecord s e mask r) hj) hnd' (by simpa using hf)
        have hlt : j < ns.length := h.lt_length j mem_cons_self
        have hget : (maskFrom s e mask (ns.set j (maskRecord s e mask r)) fuel r.next)[j]? =
            some (maskRecord s e mask r) := by
          rw [hframe j hj]; simp [hlt]
        refine ⟨maskRecord s e mask r :: rs', .link hget (by simpa using h0) (by simpa using hl'),
          by rw [map_cons, hseg], ?_⟩
        intro k hk
        rw [hframe k fun hmem => hk (mem_cons_of_mem _ hmem), hkeep k hk]

/-- **`_add_reservation` on the list.**  Whatever the map holds, the array code keeps it a
    proper linked list and computes the list version of its two loops. -/
theorem addReservation_segments (resolution s e : ℕ) (mask : BitVec w) (h : WellLinked ns) :
    WellLinked (addReservation resolution s e mask ns) ∧
    segments (addReservation resolution s e mask ns) =
      maskSegs (roundDown resolution s) (roundDown resolution e) mask
        (placeSegs (roundDown resolution s) (roundDown resolution e) (segments ns)) := by
  obtain ⟨is, rs, hl, hnd⟩ := h
  obtain ⟨is1, rs1, hl1, hnd1, hseg1, -, -⟩ := placeFrom_rewrites hl hnd (hl.length_le hnd)
  obtain ⟨rs2, hl2, hseg2, -⟩ := maskFrom_linked mask hl1 hnd1 (hl1.length_le hnd1)
  refine ⟨⟨is1, rs2, hl2, hnd1⟩, ?_⟩
  rw [segments_eq hl hnd, ← hseg1, ← hseg2]
  exact segments_eq hl2 hnd1

theorem overlapFrom_eq (use : BitVec w) {fuel : ℕ} (h : Linked NodeSpaceMap.next ns j is rs)
    (hf : is.length ≤ fuel) :
    overlapFrom use s e ns fuel j = overlapSegs use s e (rs.map NodeSpaceMap.toSeg) := by
  induction fuel generalizing j is rs with
  | zero => exact absurd h.pos (Nat.not_lt.2 hf)
  | succ fuel ih =>
    obtain ⟨r, is, rs, rfl, rfl, hr, ⟨h0, rfl⟩ | ⟨h0, ht⟩⟩ := h.head
    · simp [overlapFrom, hr, h0, overlapSegs, NodeSpaceMap.toSeg]
    · have htail := ih ht (by simpa using hf)
      have hcons : overlapSegs use s e ((r :: rs).map NodeSpaceMap.toSeg) =
          (decide (s < r.endTime ∧ r.beginTime < e ∧ bitSuperSet use r.availBitmap = false) ||
            overlapSegs use s e (rs.map NodeSpaceMap.toSeg)) := rfl
      rw [overlapFrom, hr, hcons]
      simp only [if_neg h0, htail]
      split
      · rename_i hc; rw [decide_eq_true hc, Bool.true_or]
      · rename_i hc; rw [decide_eq_false hc, Bool.false_or]

theorem testResvOverlap_eq (h : WellLinked ns) (use : BitVec w) :
    testResvOverlap ns use s e = overlapSegs use s e (segments ns) := by
  obtain ⟨is, rs, hl, hnd⟩ := h
  rw [segments_eq hl hnd, testResvOverlap]
  exact overlapFrom_eq use hl (hl.length_le hnd)

/-! ## The array -/

theorem length_insertEnd_le (j : ℕ) : (insertEnd e ns j).length ≤ ns.length + 1 := by
  unfold insertEnd
  split_ifs
  · exact Nat.le_succ _
  · split
    · exact Nat.le_succ _
    · split_ifs
      · simp [splitRecord]
      · exact Nat.le_succ _

theorem length_placeFrom_le (fuel j : ℕ) : (placeFrom s e ns fuel j).length ≤ ns.length + 2 := by
  fun_induction placeFrom with
  | case1 | case2 | case5 => exact Nat.le_add_right ..
  | case3 => exact (length_insertEnd_le _).trans_eq (by simp [splitRecord])
  | case4 => exact (length_insertEnd_le _).trans (Nat.le_succ _)
  | case6 _ _ _ _ _ _ _ ih => exact ih

theorem length_maskFrom (mask : BitVec w) (fuel j : ℕ) : (maskFrom s e mask ns fuel j).length = ns.length := by
  induction fuel generalizing ns j with
  | zero => rfl
  | succ fuel ih =>
    cases hr : ns[j]? with
    | none => rw [maskFrom, hr]
    | some r =>
      rw [maskFrom_succ hr]
      split_ifs
      · exact length_set
      · rw [ih, length_set]

end Slurmpp.Backfill
