/-
  The job record: which nodes a job has taken, and from whom.  Of its two PARALLEL ARRAYS only the first `num_ctrl`
  slots (the record's own field, which shadows the global) count; `pairs` reads them.

  `update_job_resource` files newly taken nodes with `find_exist`, which takes an empty slot for a hit, and
  `reset_job_resource` forgets to reset `num_ctrl`.  Every record built by them is `Tidy`:

  * first slot empty  — nothing was filed, or the record was reset with a stale `num_ctrl`;
  * first slot filled — then it is the ONLY filled one: chunks of that controller join it, chunks of any other
                        controller go to slot 1, which is never counted.
-/
import Slurmpp.Controller.Datastr

namespace Slurmpp.Controller

open List

open Text (words Ended)

structure JobResource where
  numTry : Nat
  numNode : Nat
  nodelist : Text
  ctrlIds1 : Text
  numCtrl : Nat
  ctrlIds2 : List Text
  nodeAlloc : List Text
  self : Bool
deriving DecidableEq, Repr

namespace Cluster

/-- `init_job_resource`: `calloc`ed texts are empty. -/
def initJobResource (K : Cluster) : JobResource where
  numTry := 0
  numNode := 0
  nodelist := []
  ctrlIds1 := []
  numCtrl := 0
  ctrlIds2 := replicate K.numCtrl []
  nodeAlloc := replicate K.numCtrl []
  self := true

/-- `reset_job_resource`: everything as after `init_job_resource`, but `num_ctrl` stays. -/
def resetJobResource (K : Cluster) (r : JobResource) : JobResource :=
  { r with
    numTry := 0
    numNode := 0
    nodelist := []
    ctrlIds1 := []
    ctrlIds2 := replicate K.numCtrl []
    nodeAlloc := replicate K.numCtrl []
    self := true }

/-- `_get_index`: the place in the membership list, `num_ctrl` for a stranger. -/
def getIndex (K : Cluster) (ctlId : Text) : Nat := K.memList.idxOf ctlId

end Cluster

/-- `strcat` to a slot of an array of texts. -/
def appendAt (slots : List Text) (i : Nat) (t : Text) : List Text :=
  slots.set i (slots.getD i [] ++ t)

/-- `update_job_resource` on the controller `selfId`; `none` when it writes outside the arrays. -/
def Cluster.updateJobResource (K : Cluster) (selfId : Text) (r : JobResource)
    (numNodeAllocated : Nat) (ctrlId nodelist : Text) : Option JobResource :=
  let r : JobResource :=
    { r with
      numTry := 0
      numNode := r.numNode + numNodeAllocated
      nodelist := r.nodelist ++ nodelist
      self := if K.getIndex ctrlId < K.getIndex selfId then false else r.self }
  match findExist r.ctrlIds2 ctrlId K.numCtrl with
  | none =>
    if r.numCtrl < r.ctrlIds2.length ∧ r.numCtrl < r.nodeAlloc.length then
      some { r with
        ctrlIds1 := r.ctrlIds1 ++ ctrlId ++ [',']
        ctrlIds2 := appendAt r.ctrlIds2 r.numCtrl ctrlId
        nodeAlloc := appendAt r.nodeAlloc r.numCtrl (nodelist ++ [','])
        numCtrl := r.numCtrl + 1 }
    else none
  | some index =>
    if index < r.nodeAlloc.length then
      some { r with nodeAlloc := appendAt r.nodeAlloc index (nodelist ++ [',']) }
    else none

theorem getD_appendAt {slots : List Text} {i : Nat} (hi : i < slots.length) (t : Text) (j : Nat) :
    (appendAt slots i t).getD j [] = if j = i then slots.getD i [] ++ t else slots.getD j [] := by
  rw [appendAt, getD_eq_getElem?_getD, getElem?_set]
  by_cases hj : i = j
  · subst hj
    simp [hi]
  · rw [if_neg hj, if_neg (Ne.symm hj), getD_eq_getElem?_getD]

@[simp] theorem getD_replicate_nil (n j : Nat) : (replicate n ([] : Text)).getD j [] = [] := by
  rw [getD_eq_getElem?_getD, getElem?_replicate]
  split <;> rfl

/-! ## The pairs a record counts -/

def under (c : Text) (ns : List Text) : List (Text × Text) := ns.map fun n => (c, n)

@[simp] theorem mem_under {c : Text} {ns : List Text} {x : Text × Text} : x ∈ under c ns ↔ x.1 = c ∧ x.2 ∈ ns := by
  obtain ⟨a, b⟩ := x
  simp only [under, mem_map, Prod.mk.injEq]
  constructor
  · rintro ⟨n, hn, rfl, rfl⟩
    exact ⟨rfl, hn⟩
  · rintro ⟨rfl, hb⟩
    exact ⟨b, hb, rfl, rfl⟩

theorem nodup_under {c : Text} {ns : List Text} : (under c ns).Nodup ↔ ns.Nodup :=
  nodup_map_iff fun _ _ h => (Prod.mk.inj h).2

namespace JobResource

/-- The (controller, node) pairs of slot `j`. -/
def slotPairs (r : JobResource) (j : Nat) : List (Text × Text) :=
  under (r.ctrlIds2.getD j []) (words ',' (r.nodeAlloc.getD j []))

/-- The pairs of the counted slots from `i` on. -/
def pairsFrom (r : JobResource) (i : Nat) : List (Text × Text) :=
  (range' i (r.numCtrl - i)).flatMap r.slotPairs

def pairs (r : JobResource) : List (Text × Text) := r.pairsFrom 0

variable {r r' : JobResource}

theorem pairsFrom_of_lt {i : Nat} (h : i < r.numCtrl) : r.pairsFrom i = r.slotPairs i ++ r.pairsFrom (i + 1) := by
  have hs : r.numCtrl - i = (r.numCtrl - (i + 1)) + 1 := by omega
  rw [pairsFrom, hs, range'_succ, flatMap_cons, pairsFrom]

theorem pairsFrom_of_le {i : Nat} (h : r.numCtrl ≤ i) : r.pairsFrom i = [] := by
  rw [pairsFrom, Nat.sub_eq_zero_of_le h]
  rfl

theorem pairs_of_one (h : r.numCtrl = 1) : r.pairs = r.slotPairs 0 := by
  have hlast : r.pairsFrom 1 = [] := pairsFrom_of_le (by omega)
  rw [pairs, pairsFrom_of_lt (by omega), hlast, append_nil]

theorem pairs_congr (hn : r'.numCtrl = r.numCtrl)
    (hs : ∀ j < r.numCtrl, r'.slotPairs j = r.slotPairs j) : r'.pairs = r.pairs := by
  rw [pairs, pairs, pairsFrom, pairsFrom, hn]
  refine flatMap_congr fun j hj => hs j ?_
  rw [mem_range'_1] at hj
  omega

theorem pairs_succ (hn : r'.numCtrl = r.numCtrl + 1) (hs : ∀ j < r.numCtrl, r'.slotPairs j = r.slotPairs j) :
    r'.pairs = r.pairs ++ r'.slotPairs r.numCtrl := by
  have hcongr : (range' 0 r.numCtrl).flatMap r'.slotPairs = (range' 0 r.numCtrl).flatMap r.slotPairs := by
    refine flatMap_congr fun j hj => hs j ?_
    rw [mem_range'_1] at hj
    omega
  rw [pairs, pairs, pairsFrom, pairsFrom, hn, Nat.sub_zero, Nat.sub_zero, range'_concat, flatMap_append, hcongr]
  simp

/-- The shape of every record that `init`, `update` and `reset` build. -/
structure Tidy (K : Cluster) (r : JobResource) : Prop where
  ids : r.ctrlIds2.length = K.numCtrl
  allocs : r.nodeAlloc.length = K.numCtrl
  /-- every node list ends where a name ends. -/
  ended : ∀ j, Ended ',' (r.nodeAlloc.getD j [])
  /-- with an empty first slot, nothing stands in the slots that are not counted. -/
  fresh : r.ctrlIds2.getD 0 [] = [] → ∀ j, r.numCtrl ≤ j → r.ctrlIds2.getD j [] = [] ∧ r.nodeAlloc.getD j [] = []
  /-- a filled first slot is the only filled and the only counted one. -/
  single : r.ctrlIds2.getD 0 [] ≠ [] → r.numCtrl = 1 ∧ ∀ j, 1 ≤ j → r.ctrlIds2.getD j [] = []

/-- All slots are there and empty: a new record, or one that was reset. -/
structure Blank (K : Cluster) (r : JobResource) : Prop where
  ids : r.ctrlIds2 = replicate K.numCtrl []
  allocs : r.nodeAlloc = replicate K.numCtrl []

variable {K : Cluster} {r : JobResource}

theorem Blank.tidy (h : r.Blank K) : r.Tidy K where
  ids := by rw [h.ids, length_replicate]
  allocs := by rw [h.allocs, length_replicate]
  ended j := .inl (by rw [h.allocs, getD_replicate_nil])
  fresh _ j _ := by
    rw [h.ids, h.allocs, getD_replicate_nil]
    exact ⟨rfl, rfl⟩
  single h0 := absurd (by rw [h.ids, getD_replicate_nil]) h0

theorem Blank.pairsFrom_eq (h : r.Blank K) (i : Nat) : r.pairsFrom i = [] := by
  rw [pairsFrom, flatMap_eq_nil_iff]
  intro j _
  rw [slotPairs, h.allocs, getD_replicate_nil, Text.words_nil]
  rfl

end JobResource

open JobResource

theorem blank_init (K : Cluster) : K.initJobResource.Blank K := ⟨rfl, rfl⟩

theorem blank_reset (K : Cluster) (r : JobResource) : (K.resetJobResource r).Blank K := ⟨rfl, rfl⟩

/-! ## What `update_job_resource` does to a tidy record -/

section Update

variable {K : Cluster} {selfId : Text} {r r' : JobResource} {n : Nat} {c nl : Text}

/-- The counters and texts that change in the same way wherever the chunk is filed. -/
structure Charged (K : Cluster) (selfId : Text) (r : JobResource) (n : Nat) (c nl : Text)
    (r' : JobResource) : Prop where
  numTry : r'.numTry = 0
  numNode : r'.numNode = r.numNode + n
  nodelist : r'.nodelist = r.nodelist ++ nl
  self : r'.self = if K.getIndex c < K.getIndex selfId then false else r.self

section

variable (hu : K.updateJobResource selfId r n c nl = some r')
include hu

theorem update_cases :
    Charged K selfId r n c nl r' ∧
    ((findExist r.ctrlIds2 c K.numCtrl = none ∧
        r.numCtrl < r.ctrlIds2.length ∧ r.numCtrl < r.nodeAlloc.length ∧
        r'.ctrlIds1 = r.ctrlIds1 ++ c ++ [','] ∧
        r'.ctrlIds2 = appendAt r.ctrlIds2 r.numCtrl c ∧
        r'.nodeAlloc = appendAt r.nodeAlloc r.numCtrl (nl ++ [',']) ∧
        r'.numCtrl = r.numCtrl + 1) ∨
      ∃ i, findExist r.ctrlIds2 c K.numCtrl = some i ∧ i < r.nodeAlloc.length ∧
        r'.ctrlIds1 = r.ctrlIds1 ∧ r'.ctrlIds2 = r.ctrlIds2 ∧
        r'.nodeAlloc = appendAt r.nodeAlloc i (nl ++ [',']) ∧ r'.numCtrl = r.numCtrl) := by
  revert hu
  fun_cases Cluster.updateJobResource with
  | case1 _ hf hslots =>
    rintro ⟨⟩
    exact ⟨⟨rfl, rfl, rfl, rfl⟩, .inl ⟨hf, hslots.1, hslots.2, rfl, rfl, rfl, rfl⟩⟩
  | case3 _ i hf hslot =>
    rintro ⟨⟩
    exact ⟨⟨rfl, rfl, rfl, rfl⟩, .inr ⟨i, hf, hslot, rfl, rfl, rfl, rfl⟩⟩
  | case2 | case4 => exact nofun

/-- Into which counted or uncounted slot a chunk of `c` goes. -/
inductive Filed (K : Cluster) (r : JobResource) (c nl : Text) (r' : JobResource) : Prop
  /-- the first slot is empty: a new slot behind the counted ones. -/
  | new (h0 : r.ctrlIds2.getD 0 [] = []) (hlen : r.numCtrl < K.numCtrl)
      (ids1 : r'.ctrlIds1 = r.ctrlIds1 ++ c ++ [','])
      (ids : r'.ctrlIds2 = appendAt r.ctrlIds2 r.numCtrl c)
      (allocs : r'.nodeAlloc = appendAt r.nodeAlloc r.numCtrl (nl ++ [',']))
      (num : r'.numCtrl = r.numCtrl + 1)
  /-- the first slot is filled: it takes the chunk if it is this controller's, else slot 1 does. -/
  | old (h0 : r.ctrlIds2.getD 0 [] ≠ []) (i : Nat) (hlen : i < K.numCtrl)
      (hi : i = if r.ctrlIds2.getD 0 [] = c then 0 else 1)
      (ids1 : r'.ctrlIds1 = r.ctrlIds1) (ids : r'.ctrlIds2 = r.ctrlIds2)
      (allocs : r'.nodeAlloc = appendAt r.nodeAlloc i (nl ++ [',']))
      (num : r'.numCtrl = r.numCtrl)

theorem JobResource.Tidy.filed (h : r.Tidy K) :
    Filed K r c nl r' := by
  by_cases h0 : r.ctrlIds2.getD 0 [] = []
  · rcases (update_cases hu).2 with ⟨-, h1, -, ids1, ids, allocs, num⟩ | ⟨i, hf, -⟩
    · exact .new h0 (h.ids ▸ h1) ids1 ids allocs num
    · rw [findExist_of_empty h0] at hf
      cases hf
  · obtain ⟨hone, hrest⟩ := h.single h0
    by_cases hc : r.ctrlIds2.getD 0 [] = c
    · rcases (update_cases hu).2 with ⟨hf, -⟩ | ⟨i, hf, h1, ids1, ids, allocs, num⟩
      · rw [findExist_of_first h0 hc] at hf
        cases hf
      · rw [findExist_of_first h0 hc] at hf
        cases hf
        exact .old h0 0 (h.allocs ▸ h1) (if_pos hc).symm ids1 ids allocs num
    · have hfind := findExist_of_second_empty h0 hc (hrest 1 le_rfl) K.numCtrl
      rcases (update_cases hu).2 with ⟨hf, h1, -⟩ | ⟨i, hf, h1, ids1, ids, allocs, num⟩
      · -- `find_exist` says -1 only with one controller in all; then there is no second slot
        rw [h.ids, hone] at h1
        rw [hfind, if_neg (by omega)] at hf
        cases hf
      · rw [hfind] at hf
        split_ifs at hf with hs
        cases hf
        exact .old h0 1 (h.allocs ▸ h1) (if_neg hc).symm ids1 ids allocs num

theorem JobResource.Tidy.update (h : r.Tidy K) : r'.Tidy K := by
  have hended : ∀ i, i < r.nodeAlloc.length → ∀ j, Ended ',' ((appendAt r.nodeAlloc i (nl ++ [','])).getD j []) := by
    intro i hi j
    rw [getD_appendAt hi]
    split_ifs with hj
    · rw [← append_assoc]
      exact Text.ended_append_delim _
    · exact h.ended j
  cases h.filed hu with
  | new h0 hlen ids1 ids allocs num =>
    have hi : r.numCtrl < r.ctrlIds2.length := h.ids ▸ hlen
    have ha : r.numCtrl < r.nodeAlloc.length := h.allocs ▸ hlen
    obtain ⟨hci, -⟩ := h.fresh h0 r.numCtrl le_rfl
    refine ⟨?_, ?_, ?_, ?_, ?_⟩
    · rw [ids, appendAt, length_set, h.ids]
    · rw [allocs, appendAt, length_set, h.allocs]
    · rw [allocs]
      exact hended _ ha
    · intro _ j hj
      have hne : j ≠ r.numCtrl := by omega
      rw [ids, allocs, getD_appendAt hi, getD_appendAt ha, if_neg hne, if_neg hne]
      exact h.fresh h0 j (by omega)
    · -- the first slot is filled only if it was the new one
      intro hne
      rw [ids, getD_appendAt hi] at hne
      split_ifs at hne with hz
      · refine ⟨by omega, fun j hj => ?_⟩
        rw [ids, getD_appendAt hi, if_neg (by omega)]
        exact (h.fresh h0 j (by omega)).1
      · exact absurd h0 hne
  | old h0 i hlen hi ids1 ids allocs num =>
    have ha : i < r.nodeAlloc.length := h.allocs ▸ hlen
    refine ⟨ids ▸ h.ids, ?_, ?_, ?_, ?_⟩
    · rw [allocs, appendAt, length_set, h.allocs]
    · rw [allocs]
      exact hended _ ha
    · rw [ids]
      exact fun hz => absurd hz h0
    · rw [ids, num]
      exact h.single

/-- **What a new chunk adds to the counted pairs**: itself, unless the first slot is filled with
    another controller's name; then nothing. -/
theorem JobResource.Tidy.pairs_update (h : r.Tidy K) :
    r'.pairs = r.pairs ++
      if r.ctrlIds2.getD 0 [] = [] ∨ r.ctrlIds2.getD 0 [] = c then under c (words ',' nl) else [] := by
  have hwords : ∀ s, Ended ',' s → words ',' (s ++ (nl ++ [','])) = words ',' s ++ words ',' nl := by
    intro s hs
    rw [hs.words_append, Text.words_append_delim_nil]
  cases h.filed hu with
  | new h0 hlen ids1 ids allocs num =>
    have hi : r.numCtrl < r.ctrlIds2.length := h.ids ▸ hlen
    have ha : r.numCtrl < r.nodeAlloc.length := h.allocs ▸ hlen
    obtain ⟨hci, hca⟩ := h.fresh h0 r.numCtrl le_rfl
    rw [if_pos (.inl h0), pairs_succ num ?_]
    · rw [slotPairs, ids, allocs, getD_appendAt hi, getD_appendAt ha, if_pos rfl, if_pos rfl,
        hci, hca, hwords [] (.inl rfl)]
      rfl
    · intro j hj
      have hne : j ≠ r.numCtrl := by omega
      rw [slotPairs, ids, allocs, getD_appendAt hi, getD_appendAt ha, if_neg hne, if_neg hne, slotPairs]
  | old h0 i hlen hi ids1 ids allocs num =>
    have ha : i < r.nodeAlloc.length := h.allocs ▸ hlen
    obtain ⟨hone, -⟩ := h.single h0
    by_cases hc : r.ctrlIds2.getD 0 [] = c
    · obtain rfl : i = 0 := by rw [hi, if_pos hc]
      rw [if_pos (.inr hc), pairs_of_one hone, pairs_of_one (num.trans hone), slotPairs, slotPairs,
        ids, allocs, getD_appendAt ha, if_pos rfl, hwords _ (h.ended 0), hc]
      exact map_append
    · obtain rfl : i = 1 := by rw [hi, if_neg hc]
      rw [if_neg (by simp only [not_or]; exact ⟨h0, hc⟩), append_nil]
      refine pairs_congr num fun j hj => ?_
      rw [slotPairs, ids, allocs, getD_appendAt ha, if_neg (by omega), slotPairs]

end

/-- Every slot that names a controller lists a node. -/
def JobResource.Filled (r : JobResource) : Prop :=
  ∀ j, r.ctrlIds2.getD j [] ≠ [] → words ',' (r.nodeAlloc.getD j []) ≠ []

theorem JobResource.Blank.filled (h : r.Blank K) : r.Filled := by
  intro j hj
  rw [h.ids, getD_replicate_nil] at hj
  exact absurd rfl hj

theorem JobResource.Tidy.filled_update (h : r.Tidy K) (hf : r.Filled) (hnl : words ',' nl ≠ [])
    (hu : K.updateJobResource selfId r n c nl = some r') : r'.Filled := by
  -- appending a chunk never takes a word away
  have hgrow : ∀ i, i < r.nodeAlloc.length → ∀ j,
      words ',' (r.nodeAlloc.getD j []) ≠ [] ∨ j = i →
      words ',' ((appendAt r.nodeAlloc i (nl ++ [','])).getD j []) ≠ [] := by
    intro i hi j hj
    rw [getD_appendAt hi]
    split_ifs with hji
    · rw [(h.ended i).words_append, Text.words_append_delim_nil]
      simp [hnl]
    · exact hj.resolve_right hji
  intro j hj
  cases h.filed hu with
  | new h0 hlen ids1 ids allocs num =>
    have hi : r.numCtrl < r.ctrlIds2.length := h.ids ▸ hlen
    rw [allocs]
    apply hgrow _ (h.allocs ▸ hlen)
    by_cases hji : j = r.numCtrl
    · exact .inr hji
    · rw [ids, getD_appendAt hi, if_neg hji] at hj
      exact .inl (hf j hj)
  | old h0 i hlen hi ids1 ids allocs num =>
    rw [allocs]
    apply hgrow _ (h.allocs ▸ hlen)
    rw [ids] at hj
    exact .inl (hf j hj)

end Update

end Slurmpp.Controller
