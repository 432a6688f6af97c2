/-
  Job information in the store: what `insert_jobinfo_zht` writes and what `_create_job_resource` and
  `check_job_belong` read back.  All entries are keyed by UNDELIMITED concatenation:

  * `<id>`                        — the origin;
  * `<id><origin>`                — "I am here", if the completion will come back to the origin;
  * `<id><origin>ctrls`           — the controllers involved, each followed by a comma;
  * `<id><origin><controller>`    — the nodes taken from that controller;
  * `<id><origin>Fin`             — "Finished", written by whoever handled the completion.

  `Legible` says when the keys of different jobs, and pool keys, stay apart.  The record comes back unchanged if it
  is `Regular`.  A record that `allocate_res` returns is regular if it is clean (`regular_of_clean`), and not after
  an abandoned attempt: its counted slots begin with an empty one, and `find_exist` gives up there.
-/
import Slurmpp.Controller.Record

namespace Slurmpp.Controller

open List Option

open Text (words closed IsWord NoDigitFirst)

/-! ## Keys -/

/-- A job's key: its id, and what is appended to it. -/
def jobKey (jobId : Nat) (tail : Text) : Text := Text.ofNat jobId ++ tail

theorem jobKey_append (jobId : Nat) (s t : Text) : jobKey jobId s ++ t = jobKey jobId (s ++ t) :=
  append_assoc _ _ _

theorem jobKey_inj {jobId : Nat} {s t : Text} : jobKey jobId s = jobKey jobId t ↔ s = t :=
  append_cancel_left_eq _ _ _ |>.to_iff

/-- What the code appends to an id: nothing, or a text that begins with a controller's name. -/
def Tail (N : Set Text) (t : Text) : Prop := t = [] ∨ ∃ c ∈ N, ∃ u, t = c ++ u

theorem tail_append {N : Set Text} {c : Text} (hc : c ∈ N) (u : Text) : Tail N (c ++ u) :=
  .inr ⟨c, hc, u, rfl⟩

theorem tail_name {N : Set Text} {c : Text} (hc : c ∈ N) : Tail N c :=
  .inr ⟨c, hc, [], (append_nil c).symm⟩

/-- **Names and ids that can be told apart** in an undelimited key. -/
def Legible (N : Set Text) (I : Set Nat) : Prop :=
  (∀ c ∈ N, NoDigitFirst c) ∨
    (∀ i ∈ I, ∀ j ∈ I, (Text.ofNat i).length = (Text.ofNat j).length) ∧ ∀ c ∈ N, ∀ i ∈ I, ¬Text.ofNat i <+: c

section Keys

variable {N : Set Text} {I : Set Nat} {i j : Nat} {s t c : Text}

theorem Tail.noDigitFirst (ht : Tail N t) (hN : ∀ c ∈ N, c ≠ []) (hd : ∀ c ∈ N, NoDigitFirst c) : NoDigitFirst t := by
  rcases ht with rfl | ⟨c, hc, u, rfl⟩
  · exact fun _ h => absurd h (by simp)
  · intro d hmem
    refine hd c hc d ?_
    rwa [head?_append_of_ne_nil _ (hN c hc)] at hmem

theorem Legible.jobKey_ne (h : Legible N I) (hN : ∀ c ∈ N, c ≠ []) (hi : i ∈ I) (hj : j ∈ I)
    (hij : i ≠ j) (hs : Tail N s) (ht : Tail N t) : jobKey i s ≠ jobKey j t := by
  intro he
  rcases h with hd | ⟨hlen, -⟩
  · exact hij (Text.ofNat_append_inj (hs.noDigitFirst hN hd) (ht.noDigitFirst hN hd) he).1
  · exact hij (Text.ofNat_injective (append_inj_left he (hlen i hi j hj)))

theorem Legible.name_ne (h : Legible N I) (hi : i ∈ I) (hc : c ∈ N) : c ≠ jobKey i t := by
  intro he
  rcases h with hd | ⟨-, hpre⟩
  · obtain ⟨d, ds, hds⟩ := exists_cons_of_ne_nil (Text.ofNat_ne_nil i)
    have hdigit : d.isDigit = true := Text.isDigit_of_mem_ofNat (hds ▸ mem_cons_self)
    have hno := hd c hc d (by rw [he, jobKey, hds]; rfl)
    rw [hdigit] at hno
    cases hno
  · exact hpre c hc i hi (he ▸ prefix_append _ _)

end Keys

/-! ## Writer and readers -/

/-- The value that tells the origin not to wait. -/
def hereText : Text := "I am here".toList

/-- What is appended for the list of controllers. -/
def ctrlsText : Text := "ctrls".toList

/-- `insert_jobinfo_zht` on the controller `selfId`: its inserts, in order. -/
def insertJobinfoZht (selfId : Text) (jobId : Nat) (r : JobResource) : List (Text × Text) :=
  (jobKey jobId [], selfId) ::
    ((if r.self = true ∧ findExist r.ctrlIds2 selfId r.numCtrl ≠ none then
        [(jobKey jobId selfId, hereText)] else []) ++
      (jobKey jobId (selfId ++ ctrlsText), r.ctrlIds1) ::
        (range r.numCtrl).map fun i =>
          (jobKey jobId (selfId ++ r.ctrlIds2.getD i []), r.nodeAlloc.getD i []))

/-- Where `_create_job_resource` stands: before the lookup of the controllers, before that of the
    nodes of slot `i`, or at its end. -/
inductive Build
  | ctrls
  | alloc (r : JobResource) (i : Nat)
  | done (r : JobResource)
  | fault (f : Fault)
deriving DecidableEq, Repr

/-- The loop over the slots. -/
def Build.next (r : JobResource) (i : Nat) : Build := if i < r.numCtrl then .alloc r i else .done r

/-- One lookup of `_create_job_resource`; a missing value leaves the `calloc`ed buffer empty, and
    the tokens of the controller list replace the pointers of `ctrl_ids_2`. -/
def Cluster.createJobResource (K : Cluster) (jobidOriginCtrlid : Text) (st : Zht) :
    Build → Option Build
  | .ctrls =>
    let ctrlIds1 := (st (jobidOriginCtrlid ++ ctrlsText)).getD []
    match splitStr ctrlIds1 ',' K.numCtrl with
    | none => some (.fault .tokens)
    | some ids =>
      some (.next
        { K.initJobResource with
          ctrlIds1 := ctrlIds1
          numCtrl := ids.length
          ctrlIds2 := ids ++ replicate (K.numCtrl - ids.length) [] } 0)
  | .alloc r i =>
    let nodes := (st (jobidOriginCtrlid ++ r.ctrlIds2.getD i [])).getD []
    some (.next { r with nodeAlloc := r.nodeAlloc.set i nodes } (i + 1))
  | .done _ | .fault _ => none

/-! ## Regular records -/

def JobResource.ids (r : JobResource) : List Text := r.ctrlIds2.take r.numCtrl

/-- The counted slots: controllers with their nodes. -/
def JobResource.slots (r : JobResource) : List (Text × List Text) :=
  (range r.numCtrl).map fun j => (r.ctrlIds2.getD j [], words ',' (r.nodeAlloc.getD j []))

/-- **A record that can be stored**: its slots are inside the arrays and name distinct controllers
    of `N`, and `ctrl_ids_1` lists the same ones. -/
structure JobResource.Regular (K : Cluster) (N : Set Text) (r : JobResource) : Prop where
  text : r.ctrlIds1 = closed ',' r.ids
  size : r.ctrlIds2.length = K.numCtrl
  num : r.numCtrl ≤ K.numCtrl
  first : r.numCtrl = 0 → r.ctrlIds2.getD 0 [] = []
  nodup : r.ids.Nodup
  names : ∀ c ∈ r.ids, c ∈ N

section Regular

variable {K : Cluster} {N : Set Text} {r r' : JobResource} {selfId : Text} {jobId : Nat} {st : Zht}

theorem JobResource.Regular.length_ids (h : r.Regular K N) : r.ids.length = r.numCtrl := by
  rw [JobResource.ids, length_take, h.size, min_eq_left h.num]

theorem JobResource.getD_ids {j : Nat} (hj : j < r.numCtrl) : r.ids.getD j [] = r.ctrlIds2.getD j [] := by
  simp [JobResource.ids, hj]

theorem JobResource.Regular.mem_ids (h : r.Regular K N) {j : Nat} (hj : j < r.numCtrl) :
    r.ctrlIds2.getD j [] ∈ r.ids := by
  have hlt : j < r.ids.length := by rw [h.length_ids]; exact hj
  rw [← JobResource.getD_ids hj, getD_eq_getElem _ _ hlt]
  exact getElem_mem hlt

theorem findExistFrom_ne_none {target : Text} {size : Nat} {names : List Text}
    (hne : ∀ c ∈ names, c ≠ []) (rest : List Text) (hnil : names ≠ []) (count : Nat)
    (hsize : count + names.length = size) :
    findExistFrom target size (names ++ rest) count ≠ none ↔ target ∈ names := by
  induction names generalizing count with
  | nil => exact absurd rfl hnil
  | cons c names ih =>
    rw [length_cons] at hsize
    rw [cons_append, findExistFrom, if_neg (hne c mem_cons_self)]
    by_cases hc : c = target
    · rw [if_pos hc]
      simp [hc]
    · rw [if_neg hc, List.mem_cons]
      have hc' : ¬target = c := fun he => hc he.symm
      cases names with
      | nil =>
        have hlast : count + 1 ≥ size := by simp at hsize; omega
        rw [if_pos hlast]
        simp [hc']
      | cons d names =>
        have hmore : ¬count + 1 ≥ size := by
          rw [length_cons] at hsize
          omega
        rw [if_neg hmore, ih (forall_mem_cons.1 hne).2 (by simp) (count + 1)
          (by omega)]
        simp [hc']

theorem JobResource.Regular.findExist_ne_none (h : r.Regular K N) (hN : ∀ c ∈ N, c ≠ []) :
    findExist r.ctrlIds2 selfId r.numCtrl ≠ none ↔ selfId ∈ r.ids := by
  have hne : ∀ c ∈ r.ids, c ≠ [] := fun c hc => hN c (h.names c hc)
  by_cases hz : r.numCtrl = 0
  · rw [findExist_of_empty (h.first hz), JobResource.ids, hz]
    simp
  · have hpos : 0 < r.numCtrl := by omega
    have h0 : r.ctrlIds2.getD 0 [] ≠ [] := hne _ (h.mem_ids hpos)
    have hnil : r.ids ≠ [] := ne_nil_of_mem (h.mem_ids hpos)
    rw [findExist, if_neg h0]
    conv_lhs => rw [← take_append_drop r.numCtrl r.ctrlIds2]
    exact findExistFrom_ne_none hne _ hnil 0 (by rw [h.length_ids]; omega)

/-- What is appended to the id in the keys of `insert_jobinfo_zht`. -/
def JobResource.tails (r : JobResource) (selfId : Text) : List Text :=
  [] :: ((if r.self = true ∧ findExist r.ctrlIds2 selfId r.numCtrl ≠ none then [[]] else []) ++
    ctrlsText :: (range r.numCtrl).map (r.ctrlIds2.getD · [])).map (selfId ++ ·)

theorem keys_insertJobinfoZht :
    (insertJobinfoZht selfId jobId r).map Prod.fst = (r.tails selfId).map (jobKey jobId) := by
  rw [insertJobinfoZht, JobResource.tails]
  split_ifs
  · simp
  · simp

theorem JobResource.Regular.map_range (h : r.Regular K N) : (range r.numCtrl).map (r.ctrlIds2.getD · []) = r.ids := by
  refine ext_getElem (by simp [h.length_ids]) fun j hj hj' => ?_
  rw [h.length_ids] at hj'
  simp [JobResource.ids, h.size, hj'.trans_le h.num]

theorem JobResource.Regular.nodup_keys (h : r.Regular K N) (hN : ∀ c ∈ N, c ≠ [] ∧ c ≠ ctrlsText)
    (hself : selfId ∈ N) : ((insertJobinfoZht selfId jobId r).map Prod.fst).Nodup := by
  rw [keys_insertJobinfoZht, JobResource.tails, h.map_range]
  refine List.Nodup.map (fun _ _ => jobKey_inj.1) (nodup_cons.2 ⟨?_, ?_⟩)
  · intro hmem
    obtain ⟨t, -, he⟩ := mem_map.1 hmem
    exact (hN _ hself).1 (append_eq_nil_iff.1 he).1
  · refine List.Nodup.map (fun _ _ => append_cancel_left) ?_
    have hids : (ctrlsText :: r.ids).Nodup := nodup_cons.2 ⟨fun hmem => (hN _ (h.names _ hmem)).2 rfl, h.nodup⟩
    split_ifs
    · refine nodup_cons.2 ⟨fun hmem => ?_, hids⟩
      rcases mem_cons.1 hmem with he | hmem
      · cases he
      · exact (hN _ (h.names _ hmem)).1 rfl
    · exact hids

theorem JobResource.Regular.here_mem (h : r.Regular K N) (hN : ∀ c ∈ N, c ≠ []) (hself : selfId ∈ N) :
    (r.self = true ∧ selfId ∈ r.ids →
      (jobKey jobId selfId, hereText) ∈ insertJobinfoZht selfId jobId r) ∧
    (¬(r.self = true ∧ selfId ∈ r.ids) → jobKey jobId selfId ∉ (insertJobinfoZht selfId jobId r).map Prod.fst) := by
  constructor
  · rintro ⟨hflag, hmem⟩
    rw [insertJobinfoZht, if_pos ⟨hflag, (h.findExist_ne_none hN).2 hmem⟩]
    simp
  · intro hno hkey
    rw [← h.findExist_ne_none hN] at hno
    rw [keys_insertJobinfoZht, JobResource.tails, h.map_range, if_neg hno] at hkey
    obtain ⟨t, ht, he⟩ := mem_map.1 hkey
    obtain rfl := jobKey_inj.1 he
    rcases mem_cons.1 ht with he | ht
    · exact hN _ hself he
    · obtain ⟨u, hu, he⟩ := mem_map.1 ht
      obtain rfl := append_right_eq_self.1 he
      rcases mem_cons.1 hu with he | hu
      · cases he
      · exact hN _ (h.names _ hu) rfl

/-! ## Reading it back -/

def Stored (st : Zht) (selfId : Text) (jobId : Nat) (r : JobResource) : Prop :=
  ∀ kv ∈ insertJobinfoZht selfId jobId r, st kv.1 = some kv.2

/-- `r'` has the slots of `r`, and the nodes of the first `i` of them. -/
structure Copies (K : Cluster) (r r' : JobResource) (i : Nat) : Prop where
  num : r'.numCtrl = r.numCtrl
  ids : r'.ctrlIds2.length = K.numCtrl
  allocs : r'.nodeAlloc.length = K.numCtrl
  names : ∀ j < r.numCtrl, r'.ctrlIds2.getD j [] = r.ctrlIds2.getD j []
  nodes : ∀ j < i, r'.nodeAlloc.getD j [] = r.nodeAlloc.getD j []

/-- How far `_create_job_resource` has read the record `r`. -/
def Reads (K : Cluster) (r : JobResource) : Build → Prop
  | .ctrls => True
  | .alloc r' i => i < r.numCtrl ∧ Copies K r r' i
  | .done r' => Copies K r r' r.numCtrl
  | .fault _ => False

theorem reads_next {i : Nat} (h : Copies K r r' i) (hi : i ≤ r.numCtrl) : Reads K r (.next r' i) := by
  rw [Build.next]
  split_ifs with hlt
  · exact ⟨h.num ▸ hlt, h⟩
  · obtain rfl : i = r.numCtrl := by
      have := h.num
      omega
    exact h

/-- **A lookup of `_create_job_resource`** reads one more slot of the stored record. -/
theorem JobResource.Regular.reads (h : r.Regular K N) (hN : ∀ c ∈ N, IsWord ',' c)
    (hst : Stored st selfId jobId r) {b b' : Build} (hb : Reads K r b)
    (hs : K.createJobResource (jobKey jobId selfId) st b = some b') : Reads K r b' := by
  cases b with
  | done r' => cases hs
  | fault f => exact hb.elim
  | ctrls =>
    have hlook : st (jobKey jobId selfId ++ ctrlsText) = some r.ctrlIds1 := by
      rw [jobKey_append]
      refine hst (_, _) ?_
      rw [insertJobinfoZht, List.mem_cons, List.mem_append, List.mem_cons]
      exact .inr (.inr (.inl rfl))
    have hwords : words ',' r.ctrlIds1 = r.ids := by
      rw [h.text]
      exact Text.words_closed fun c hc => hN c (h.names c hc)
    have hsplit : splitStr r.ctrlIds1 ',' K.numCtrl = some r.ids := by
      rw [splitStr_eq hwords, if_pos (h.length_ids ▸ h.num)]
    rw [Cluster.createJobResource, hlook] at hs
    simp only [getD_some, hsplit] at hs
    cases hs
    refine reads_next ⟨h.length_ids, ?_, ?_, ?_, by simp⟩ (Nat.zero_le _)
    · have := h.num
      simp [h.length_ids]
      omega
    · exact length_replicate
    · intro j hj
      have hj' : j < r.ids.length := h.length_ids ▸ hj
      rw [getD_append _ _ _ _ hj', getD_ids hj]
  | alloc r' i =>
    obtain ⟨hi, hc⟩ := hb
    have hlook : st (jobKey jobId selfId ++ r'.ctrlIds2.getD i []) = some (r.nodeAlloc.getD i []) := by
      rw [hc.names i hi, jobKey_append]
      refine hst (_, _) ?_
      rw [insertJobinfoZht, List.mem_cons, List.mem_append, List.mem_cons, List.mem_map]
      exact .inr (.inr (.inr ⟨i, List.mem_range.2 hi, rfl⟩))
    rw [Cluster.createJobResource, hlook] at hs
    cases hs
    have hlen : i < r'.nodeAlloc.length := by
      rw [hc.allocs]
      have := h.num
      omega
    refine reads_next ⟨hc.num, hc.ids, by simp [hc.allocs], hc.names, fun j hj => ?_⟩ hi
    rw [getD_eq_getElem?_getD, getElem?_set]
    by_cases hij : i = j
    · rw [if_pos hij, if_pos hlen, ← hij]
      rfl
    · rw [if_neg hij, ← getD_eq_getElem?_getD]
      exact hc.nodes j (by omega)

theorem Copies.slots (h : Copies K r r' r.numCtrl) : r'.slots = r.slots := by
  rw [JobResource.slots, JobResource.slots, h.num]
  refine map_congr_left fun j hj => ?_
  rw [mem_range] at hj
  rw [h.names j hj, h.nodes j hj]

theorem Copies.slotPairs (h : Copies K r r' r.numCtrl) {j : Nat} (hj : j < r.numCtrl) :
    r'.slotPairs j = r.slotPairs j := by
  rw [JobResource.slotPairs, JobResource.slotPairs, h.names j hj, h.nodes j hj]

theorem Copies.pairs (h : Copies K r r' r.numCtrl) : r'.pairs = r.pairs :=
  JobResource.pairs_congr h.num fun _ hj => h.slotPairs hj

theorem Copies.stands (h : Copies K r r' r.numCtrl) (hnum : r.numCtrl ≤ K.numCtrl) (hst : r.Stands) : r'.Stands := by
  intro j hj
  rw [h.num] at hj
  refine ⟨⟨by rw [h.ids]; omega, by rw [h.allocs]; omega⟩, ?_⟩
  rw [h.slotPairs hj]
  exact (hst j hj).2

end Regular

/-! ## The records `allocate_res` can return -/

section Returned

variable {π ι : Type*} {C : Conf π ι} {K : Cluster} {N : Set Text} {r r' : JobResource}

/-- `ctrl_ids_1` against the first slot. -/
def JobResource.Signed (N : Set Text) (r : JobResource) : Prop :=
  (r.ctrlIds2.getD 0 [] = [] → r.numCtrl = 0 → r.ctrlIds1 = []) ∧
    (r.ctrlIds2.getD 0 [] ≠ [] → r.ctrlIds1 = r.ctrlIds2.getD 0 [] ++ [','] ∧ r.ctrlIds2.getD 0 [] ∈ N)

theorem JobResource.Blank.signed (hb : r.Blank K) (h1 : r.ctrlIds1 = []) : r.Signed N := by
  refine ⟨fun _ _ => h1, fun h0 => ?_⟩
  rw [hb.ids, getD_replicate_nil] at h0
  exact absurd rfl h0

theorem JobResource.Signed.update {selfId c nl : Text} {n : Nat} (h : r.Signed N)
    (ht : r.Tidy K) (hc : c ∈ N) (hu : K.updateJobResource selfId r n c nl = some r') : r'.Signed N := by
  cases ht.filed hu with
  | old h0 i hlen hi ids1 ids allocs num =>
    rw [Signed, ids1, ids, num]
    exact h
  | new h0 hlen ids1 ids allocs num =>
    refine ⟨fun _ hz => absurd hz (by omega), fun hne => ?_⟩
    have hi : r.numCtrl < r.ctrlIds2.length := ht.ids ▸ hlen
    rw [ids, getD_appendAt hi] at hne ⊢
    split_ifs at hne ⊢ with hz
    · -- the new slot is the first one, so nothing was in the text
      rw [ids1, h.1 h0 hz.symm, ← hz, h0]
      exact ⟨rfl, hc⟩
    · exact absurd h0 hne

theorem JobResource.Tidy.ids_eq (ht : r.Tidy K) (h0 : r.ctrlIds2.getD 0 [] ≠ []) :
    r.ids = [r.ctrlIds2.getD 0 []] := by
  obtain ⟨c, rest, hrest⟩ : ∃ c rest, r.ctrlIds2 = c :: rest := by
    refine exists_cons_of_ne_nil fun he => h0 ?_
    rw [he]
    rfl
  rw [JobResource.ids, (ht.single h0).1, hrest]
  rfl

theorem JobResource.Signed.regular (h : r.Signed N) (ht : r.Tidy K) (hclean : r.Clean) : r.Regular K N := by
  by_cases h0 : r.ctrlIds2.getD 0 [] = []
  · have hz := hclean h0
    have hnil : r.ids = [] := by rw [JobResource.ids, hz, take_zero]
    refine ⟨?_, ht.ids, by omega, fun _ => h0, by simp [hnil], by simp [hnil]⟩
    rw [hnil, h.1 h0 hz]
    rfl
  · obtain ⟨hone, -⟩ := ht.single h0
    obtain ⟨htext, hmem⟩ := h.2 h0
    have hids := ht.ids_eq h0
    have hpos : 1 ≤ K.numCtrl := by
      rw [← ht.ids]
      refine length_pos_of_ne_nil fun he => h0 ?_
      rw [he]
      rfl
    refine ⟨?_, ht.ids, by omega, by omega, by simp [hids], by simpa [hids] using hmem⟩
    rw [hids, htext]
    rfl

/-- The record of a thread in `allocate_res` is signed. -/
def Conf.Signed (C : Conf π ι) : Proc → Prop
  | .look r _ | .take r _ _ | .abandon r _ | .holding r => r.Signed {c | C.IsCtrl c}
  | _ => True

theorem Conf.loopHead_signed (h : r.Signed {c | C.IsCtrl c}) (need rand : Nat) :
    C.Signed (C.cluster.loopHead need rand r) := by
  rw [Cluster.loopHead]
  cases C.cluster.memList[rand % C.cluster.numCtrl]? with
  | none => trivial
  | some c =>
    split_ifs
    · exact h
    · exact h

theorem Conf.loopHead_reset_signed (C : Conf π ι) (r : JobResource) (need rand : Nat) :
    C.Signed (C.cluster.loopHead need rand (C.cluster.resetJobResource r)) :=
  C.loopHead_signed ((blank_reset C.cluster r).signed rfl) need rand

theorem Conf.again_signed (h : r.Signed {c | C.IsCtrl c}) (need rand : Nat) :
    C.Signed (C.cluster.again need rand r) := by
  rw [Cluster.again, releaseFrom]
  split_ifs
  · exact h
  · exact C.loopHead_reset_signed r need rand
  · exact C.loopHead_signed h need rand

/-- **Private data stay in shape and signed**, whatever the other threads do to the store. -/
theorem Conf.signed_act {p : π} {q : Proc} {st : Zht} {rand : Nat} {o : Out Proc} (hok : C.Ok q) (hsig : C.Signed q)
    (ho : C.cluster.act (C.selfId p) (C.need p) rand st q = some o) : C.Ok o.next ∧ C.Signed o.next := by
  have hst := Cluster.act_step ho
  cases hst with
  | missing r c hv => exact ⟨(C.again_ok hok.1.failed _ _).1, C.again_signed (r := Cluster.failed r) hsig _ _⟩
  | refused r c seen hv =>
    exact ⟨(C.again_ok hok.1.failed _ _).1, C.again_signed (r := Cluster.failed r) hsig _ _⟩
  | found | late => exact ⟨hok, hsig⟩
  | broken | spilled => exact ⟨trivial, trivial⟩
  | took r r' c seen num nl new ha hs hu =>
    exact ⟨(C.again_ok (hok.1.update hu) _ _).1, C.again_signed (JobResource.Signed.update hsig hok.1 hok.2 hu) _ _⟩
  | abandon r pc o hr =>
    cases hn : o.next with
    | error f => exact ⟨trivial, trivial⟩
    | ok e =>
      cases e with
      | none => exact ⟨(C.loopHead_reset_ok r _ _).1, C.loopHead_reset_signed r _ _⟩
      | some pc' => exact ⟨⟨hok.1, hr.slot_lt hok.2 hn⟩, hsig⟩
  | release r pc o hr =>
    cases hn : o.next with
    | error f => exact ⟨trivial, trivial⟩
    | ok e =>
      cases e with
      | none => exact ⟨trivial, trivial⟩
      | some pc' => exact ⟨hr.slot_lt hok hn, trivial⟩

variable [DecidableEq π] [DecidableEq ι] {s s₀ t : World π ι}

theorem Conf.signed_step (h : ∀ p, C.Ok (s.proc p) ∧ C.Signed (s.proc p)) {l : Label π}
    (hs : (allocator C).step s l = some t) : ∀ p, C.Ok (t.proc p) ∧ C.Signed (t.proc p) := by
  have hset : ∀ p q, C.Ok q ∧ C.Signed q → ∀ p', C.Ok (Function.update s.proc p q p') ∧
      C.Signed (Function.update s.proc p q p') := fun p q hq =>
    (Function.forall_update_iff _ fun _ (q : Proc) => C.Ok q ∧ C.Signed q).2 ⟨hq, fun p' _ => h p'⟩
  cases l with
  | start p =>
    obtain ⟨-, rfl⟩ := start_eq hs
    refine hset p _ ⟨(C.begin_ok p).1, ?_⟩
    have hb : C.cluster.initJobResource.Signed {c | C.IsCtrl c} :=
      (blank_init C.cluster).signed rfl
    rw [Cluster.begin]
    split_ifs
    · exact hb
    · exact hb
  | act p rand =>
    obtain ⟨o, ho, rfl⟩ := map_eq_some_iff.1 hs
    exact hset p _ (C.signed_act (h p).1 (h p).2 ho)
  | complete p r =>
    obtain rfl := complete_eq hs
    refine hset p _ ?_
    rw [Proc.beginRelease, releaseFrom]
    split_ifs with hn
    · exact ⟨hn, trivial⟩
    · exact ⟨trivial, trivial⟩
  | insert k v =>
    cases hs
    exact h

/-- **Every clean record that `allocate_res` returns, in whatever run, is regular.** -/
theorem regular_of_clean (h0 : ∀ p, s₀.proc p = .idle)
    (h : (allocator C).Reach (fun _ _ => True) s₀ s) {p : π} {r : JobResource}
    (hp : s.proc p = .holding r) (hclean : r.Clean) : r.Regular C.cluster {c | C.IsCtrl c} := by
  have hinv : ∀ p, C.Ok (s.proc p) ∧ C.Signed (s.proc p) :=
    h.invariant
      (fun p => by rw [h0 p]; exact ⟨trivial, trivial⟩)
      fun u l v hu _ hs => C.signed_step hu hs
  obtain ⟨hok, hsig⟩ := hinv p
  rw [hp] at hok hsig
  exact JobResource.Signed.regular hsig hok hclean

end Returned

/-! ## Other writers -/

section Others

variable {K : Cluster} {N : Set Text} {I : Set Nat} {jobId : Nat} {st st' st₀ : Zht}
  {r : JobResource} {selfId : Text}

/-- Keys that are not this job's: a pool's, or another job's. -/
def Foreign (N : Set Text) (I : Set Nat) (jobId : Nat) (k : Text) : Prop :=
  k ∈ N ∨ ∃ j ∈ I, j ≠ jobId ∧ ∃ t, Tail N t ∧ k = jobKey j t

theorem Legible.foreign_ne (h : Legible N I) (hN : ∀ c ∈ N, c ≠ []) (hid : jobId ∈ I) {k t : Text}
    (hk : Foreign N I jobId k) (ht : Tail N t) : jobKey jobId t ≠ k := by
  rcases hk with hk | ⟨j, hj, hne, u, hu, rfl⟩
  · exact (h.name_ne hid hk).symm
  · exact h.jobKey_ne hN hid hj hne.symm ht hu

/-- The two stores say the same under the job's keys. -/
def Agrees (N : Set Text) (jobId : Nat) (st st' : Zht) : Prop :=
  ∀ t, Tail N t → st (jobKey jobId t) = st' (jobKey jobId t)

theorem Agrees.foreign (h : Agrees N jobId st st') (hL : Legible N I) (hN : ∀ c ∈ N, c ≠ [])
    (hid : jobId ∈ I) {k : Text} (hk : Foreign N I jobId k) (v : Text) : Agrees N jobId (st.insert k v) st' := by
  intro t ht
  rw [Store.insert_of_ne (hL.foreign_ne hN hid hk ht)]
  exact h t ht

theorem Agrees.insert (h : Agrees N jobId st st') (k v : Text) : Agrees N jobId (st.insert k v) (st'.insert k v) := by
  intro t ht
  by_cases hk : jobKey jobId t = k
  · rw [hk, Store.insert_self, Store.insert_self]
  · rw [Store.insert_of_ne hk, Store.insert_of_ne hk]
    exact h t ht

theorem tail_of_mem_keys (hself : selfId ∈ N) {k : Text} (hk : k ∈ (insertJobinfoZht selfId jobId r).map Prod.fst) :
    ∃ t, Tail N t ∧ k = jobKey jobId t := by
  rw [keys_insertJobinfoZht] at hk
  obtain ⟨t, ht, rfl⟩ := mem_map.1 hk
  refine ⟨t, ?_, rfl⟩
  rcases mem_cons.1 ht with rfl | ht
  · exact .inl rfl
  · obtain ⟨u, -, rfl⟩ := mem_map.1 ht
    exact tail_append hself u

theorem JobResource.Regular.stored (h : r.Regular K N) (hN : ∀ c ∈ N, c ≠ [] ∧ c ≠ ctrlsText) (hself : selfId ∈ N)
    (hag : Agrees N jobId st (st₀.writes (insertJobinfoZht selfId jobId r))) : Stored st selfId jobId r := by
  rintro ⟨k, v⟩ hkv
  obtain ⟨t, ht, rfl⟩ := tail_of_mem_keys hself (mem_map_of_mem hkv)
  rw [hag t ht]
  exact Store.writes_of_mem (h.nodup_keys hN hself) hkv st₀

/-- **"I am here"** is found exactly when the record's flag is set and the origin is one of its
    controllers. -/
theorem JobResource.Regular.here_iff (h : r.Regular K N) (hN : ∀ c ∈ N, c ≠ [] ∧ c ≠ ctrlsText)
    (hself : selfId ∈ N) (hnew : st₀ (jobKey jobId selfId) ≠ some hereText)
    (hag : Agrees N jobId st (st₀.writes (insertJobinfoZht selfId jobId r))) :
    st (jobKey jobId selfId) = some hereText ↔ r.self = true ∧ selfId ∈ r.ids := by
  obtain ⟨hin, hout⟩ := h.here_mem (fun c hc => (hN c hc).1) hself
  rw [hag _ (tail_name hself)]
  by_cases hb : r.self = true ∧ selfId ∈ r.ids
  · exact iff_of_true (Store.writes_of_mem (h.nodup_keys hN hself) (hin hb) st₀) hb
  · rw [Store.writes_of_notMem (hout hb)]
    exact iff_of_false hnew hb

end Others

/-! ## The round trip -/

section RoundTrip

/-- The store, the inserts `insert_jobinfo_zht` has still to make, and a reader. -/
structure Info where
  store : Zht
  todo : List (Text × Text)
  build : Build

inductive Trip
  /-- the next insert of `insert_jobinfo_zht`. -/
  | write
  /-- the next lookup of `_create_job_resource`. -/
  | read
  /-- somebody else writes. -/
  | other (k v : Text)

/-- A writer, a reader that starts after it, and everybody else. -/
def jobinfo (K : Cluster) (jobidOriginCtrlid : Text) : Machine Info Trip where
  step s
    | .write =>
      match s.todo with
      | [] => none
      | kv :: todo => some { s with store := s.store.insert kv.1 kv.2, todo := todo }
    | .read =>
      if s.todo = [] then
        (K.createJobResource jobidOriginCtrlid s.store s.build).map fun b => { s with build := b }
      else none
    | .other k v => some { s with store := s.store.insert k v }

/-- The others write pools and other jobs' entries. -/
def Trip.Aside (N : Set Text) (I : Set Nat) (jobId : Nat) (_ : Info) : Trip → Prop
  | .other k _ => Foreign N I jobId k
  | _ => True

variable {K : Cluster} {N : Set Text} {I : Set Nat} {jobId : Nat} {r : JobResource} {selfId : Text}
  {s s₀ t : Info}

structure Underway (K : Cluster) (N : Set Text) (jobId : Nat) (selfId : Text) (r : JobResource)
    (st₀ : Zht) (s : Info) : Prop where
  written : ∃ done, insertJobinfoZht selfId jobId r = done ++ s.todo ∧ Agrees N jobId s.store (st₀.writes done)
  reads : Reads K r s.build

def Build.left (K : Cluster) : Build → Nat
  | .ctrls => K.numCtrl + 2
  | .alloc r i => r.numCtrl - i + 1
  | .done _ | .fault _ => 0

theorem Reads.next {b : Build} (h : Reads K r b) (hnot : ∀ r', b ≠ .done r') (k : Text) (st : Zht) :
    ∃ b', K.createJobResource k st b = some b' := by
  cases b with
  | done r' => exact absurd rfl (hnot r')
  | fault f => exact h.elim
  | alloc r' i => exact ⟨_, rfl⟩
  | ctrls =>
    rw [Cluster.createJobResource]
    cases splitStr ((st (k ++ ctrlsText)).getD []) ',' K.numCtrl with
    | none | some => exact ⟨_, rfl⟩

theorem Reads.left_lt {b b' : Build} {k : Text} {st : Zht} (hnum : r.numCtrl ≤ K.numCtrl)
    (h : Reads K r b) (hb : K.createJobResource k st b = some b') (h' : Reads K r b') : b'.left K < b.left K := by
  have hleft : ∀ r' i, Reads K r (.next r' i) → (Build.next r' i).left K ≤ r'.numCtrl - i + 1 ∧
      r'.numCtrl = r.numCtrl := by
    intro r' i hn
    rw [Build.next] at hn ⊢
    split_ifs at hn ⊢ with hi
    · exact ⟨le_rfl, hn.2.num⟩
    · exact ⟨Nat.zero_le _, hn.num⟩
  cases b with
  | done r' => cases hb
  | fault f => exact h.elim
  | alloc r' i =>
    obtain ⟨hi, hc⟩ := h
    cases hb
    obtain ⟨hle, -⟩ := hleft _ _ h'
    refine lt_of_le_of_lt hle ?_
    have := hc.num
    simp only [Build.left]
    omega
  | ctrls =>
    rw [Cluster.createJobResource] at hb
    cases hsp : splitStr ((st (k ++ ctrlsText)).getD []) ',' K.numCtrl with
    | none =>
      simp only [hsp] at hb
      cases hb
      exact h'.elim
    | some ids =>
      simp only [hsp] at hb
      cases hb
      obtain ⟨hle, hn⟩ := hleft _ _ h'
      refine lt_of_le_of_lt hle ?_
      simp only [Build.left] at hn ⊢
      omega

variable {st₀ : Zht} (h : Underway K N jobId selfId r st₀ s)

include h

theorem Underway.agrees (hs : s.todo = []) :
    Agrees N jobId s.store (st₀.writes (insertJobinfoZht selfId jobId r)) := by
  obtain ⟨done, hdone, hag⟩ := h.written
  rw [hs, append_nil] at hdone
  exact hdone ▸ hag

variable (hr : r.Regular K N) (hL : Legible N I) (hid : jobId ∈ I)
  (hN : ∀ c ∈ N, IsWord ',' c ∧ c ≠ ctrlsText) (hself : selfId ∈ N)

include hr hL hid hN hself

theorem Underway.step {a : Trip} (ha : a.Aside N I jobId s)
    (hs : (jobinfo K (jobKey jobId selfId)).step s a = some t) : Underway K N jobId selfId r st₀ t := by
  cases a with
  | write =>
    obtain ⟨done, hdone, hag⟩ := h.written
    cases htodo : s.todo with
    | nil =>
      simp only [jobinfo, htodo] at hs
      cases hs
    | cons kv todo =>
      simp only [jobinfo, htodo] at hs
      cases hs
      refine ⟨⟨done ++ [kv], ?_, ?_⟩, h.reads⟩
      · rw [hdone, htodo]
        simp
      · rw [Store.writes_concat]
        exact hag.insert kv.1 kv.2
  | read =>
    simp only [jobinfo, ite_none_right_eq_some] at hs
    obtain ⟨hnil, hs⟩ := hs
    obtain ⟨b, hb, rfl⟩ := map_eq_some_iff.1 hs
    have hst : Stored s.store selfId jobId r :=
      hr.stored (fun c hc => ⟨(hN c hc).1.1, (hN c hc).2⟩) hself (h.agrees hnil)
    exact ⟨h.written, hr.reads (fun c hc => (hN c hc).1) hst h.reads hb⟩
  | other k v =>
    cases hs
    obtain ⟨done, hdone, hag⟩ := h.written
    exact ⟨⟨done, hdone, hag.foreign hL (fun c hc => (hN c hc).1.1) hid ha v⟩, h.reads⟩

theorem Underway.read (hnil : s.todo = []) (hnot : ¬∃ r', s.build = .done r') :
    ∃ t, (jobinfo K (jobKey jobId selfId)).step s .read = some t ∧
      (Underway K N jobId selfId r st₀ t ∧ t.todo = []) ∧ t.build.left K < s.build.left K := by
  obtain ⟨b, hb⟩ := h.reads.next (fun r' he => hnot ⟨r', he⟩) (jobKey jobId selfId) s.store
  have hstep : (jobinfo K (jobKey jobId selfId)).step s .read = some { s with build := b } := by
    simp only [jobinfo, hnil, if_true, hb, map_some]
  have hnext := h.step hr hL hid hN hself (a := .read) trivial hstep
  exact ⟨_, hstep, ⟨hnext, hnil⟩, h.reads.left_lt hr.num hb hnext.reads⟩

end RoundTrip

section Claim

variable {π ι : Type*} [DecidableEq π] [DecidableEq ι] {C : Conf π ι} {u₀ u : World π ι} {p : π}
  {r : JobResource} {I : Set Nat} {jobId : Nat} {s₀ s : Info}

/-- **The round trip of a job record.**  Let `r` be a record that `allocate_res` returns in some run
    of the allocator, clean, and let names and ids be legible.  While `insert_jobinfo_zht` writes
    and `_create_job_resource` reads, one store operation at a time, and others write pools and
    other jobs' entries in between:

    1. when the reader is done, it has the controllers and node lists of `r`;
    2. it never runs over its array;
    3. once all is written, "I am here" is found under the job's id and origin exactly when the
       flag of `r` is set and the origin is one of its controllers;
    4. from then on the reader, left alone, gets done. -/
theorem jobinfo_round_trip (h0 : ∀ p, u₀.proc p = .idle)
    (hrun : (allocator C).Reach (fun _ _ => True) u₀ u) (hp : u.proc p = .holding r)
    (hclean : r.Clean) (hN : ∀ c, C.IsCtrl c → IsWord ',' c ∧ c ≠ ctrlsText)
    (hL : Legible {c | C.IsCtrl c} I) (hid : jobId ∈ I)
    (htodo : s₀.todo = insertJobinfoZht (C.selfId p) jobId r) (hbuild : s₀.build = .ctrls)
    (hnew : s₀.store (jobKey jobId (C.selfId p)) ≠ some hereText)
    (h : (jobinfo C.cluster (jobKey jobId (C.selfId p))).Reach
      (fun u a => a.Aside {c | C.IsCtrl c} I jobId u) s₀ s) :
    (∀ r', s.build = .done r' → r'.slots = r.slots) ∧ (∀ f, s.build ≠ .fault f) ∧
    (s.todo = [] → (s.store (jobKey jobId (C.selfId p)) = some hereText ↔
      r.self = true ∧ C.selfId p ∈ r.ids)) ∧
    (s.todo = [] → ∃ n t, (jobinfo C.cluster (jobKey jobId (C.selfId p))).run s
      (replicate n .read) = some t ∧ ∃ r', t.build = .done r') := by
  have hr := regular_of_clean h0 hrun hp hclean
  have hself : C.selfId p ∈ {c | C.IsCtrl c} := .inr ⟨p, rfl⟩
  have hU : Underway C.cluster {c | C.IsCtrl c} jobId (C.selfId p) r s₀.store s := by
    refine h.invariant
      ⟨⟨[], htodo.symm, fun _ _ => rfl⟩, by rw [hbuild]; trivial⟩ ?_
    intro u a v hu ha hs
    exact hu.step hr hL hid hN hself ha hs
  refine ⟨fun r' hd => ?_, fun f hf => ?_, fun hnil => ?_, fun hnil => ?_⟩
  · have := hU.reads
    rw [hd] at this
    exact this.slots
  · have := hU.reads
    rw [hf] at this
    exact this
  · exact hr.here_iff (fun c hc => ⟨(hN c hc).1.1, (hN c hc).2⟩) hself hnew (hU.agrees hnil)
  · obtain ⟨n, t, ht, -, hd⟩ := Machine.run_of_rank
      (M := jobinfo C.cluster (jobKey jobId (C.selfId p)))
      (I := fun v => Underway C.cluster {c | C.IsCtrl c} jobId (C.selfId p) r s₀.store v ∧ v.todo = [])
      (fun v hv hnot => hv.1.read hr hL hid hN hself hv.2 hnot) ⟨hU, hnil⟩
    exact ⟨n, t, ht, hd⟩

/-- The record of the first job of `pairConf`, launched with id 7, comes back; meanwhile a pool
    changes and job 12 writes. -/
theorem jobinfo_round_trip_pair :
    ∃ u s r', (allocator pairConf).Reach (fun _ _ => True) pairStart u ∧
      u.proc 0 = .holding pairRecord ∧
      (jobinfo pairConf.cluster (jobKey 7 "a".toList)).Reach
        (fun v a => a.Aside {c | pairConf.IsCtrl c} {7, 12} 7 v)
        ⟨pairStart.store, insertJobinfoZht "a".toList 7 pairRecord, .ctrls⟩ s ∧
      s.build = .done r' ∧ r'.slots = [("a".toList, ["n1".toList])] ∧
      s.store "7a".toList = some hereText := by
  have hrun : (allocator pairConf).Reach (fun _ _ => True) pairStart _ :=
    .of_run [.start 0, .start 1, .act 0 0, .act 1 0, .act 0 0] .start (by decide) rfl
  have hs : (jobinfo pairConf.cluster (jobKey 7 "a".toList)).Reach
      (fun v a => a.Aside {c | pairConf.IsCtrl c} {7, 12} 7 v)
      ⟨pairStart.store, insertJobinfoZht "a".toList 7 pairRecord, .ctrls⟩ _ :=
    .step (a := .read) (.step (a := .other (jobKey 12 []) "b".toList)
      (.step (a := .read) (.step (a := .write) (.step (a := .write) (.step (a := .write)
        (.step (a := .other "b".toList "0,".toList) (.step (a := .write) .start trivial rfl)
          (.inl (by decide : pairConf.IsCtrl "b".toList)) rfl)
        trivial rfl) trivial rfl) trivial rfl) trivial rfl)
      (.inr ⟨12, by simp, by decide, [], .inl rfl, rfl⟩) rfl) trivial rfl
  have hN : ∀ c, pairConf.IsCtrl c → IsWord ',' c ∧ c ≠ ctrlsText ∧ NoDigitFirst c := by
    rintro c (hc | ⟨p, rfl⟩)
    · obtain rfl | rfl : c = "a".toList ∨ c = "b".toList := by simpa [pairConf] using hc
      · decide
      · decide
    · exact (by decide : IsWord ',' "a".toList ∧ "a".toList ≠ ctrlsText ∧ NoDigitFirst "a".toList)
  have hall := jobinfo_round_trip (p := 0) (fun _ => rfl) hrun rfl (by decide)
    (fun c hc => ⟨(hN c hc).1, (hN c hc).2.1⟩) (.inl fun c hc => (hN c hc).2.2) (by simp) rfl rfl
    (by decide) hs
  exact ⟨_, _, _, hrun, rfl, hs, rfl, hall.1 _ rfl, (hall.2.2.1 rfl).2 (by decide)⟩

def tripleConf : Conf (Fin 1) (Fin 1) where
  cluster := ⟨1, ["a".toList, "b".toList, "c".toList]⟩
  selfId _ := "a".toList
  need _ := 2
  owner p := p

/-- What `allocate_res` returns when its first attempt took `n1` and was abandoned. -/
def staleRecord : JobResource :=
  ⟨0, 2, "m1n1".toList, "b,a,".toList, 3, [[], "b".toList, "a".toList], [[], "m1,".toList, "n1,".toList], true⟩

/-- **After an abandoned attempt the record does not come back.**  Its flag is set and the origin
    `a` is one of its controllers, but "I am here" is not found; and the reader has two slots where
    the record has three. -/
theorem jobinfo_stale_record :
    (∃ u, (allocator tripleConf).run splitStart
        [.start 0, .act 0 0, .act 0 2, .act 0 2, .act 0 2, .act 0 2, .act 0 2, .act 0 0, .act 0 1,
          .act 0 0, .act 0 0, .act 0 0, .act 0 0] = some u ∧ u.proc 0 = .holding staleRecord) ∧
      staleRecord.self = true ∧ "a".toList ∈ staleRecord.ids ∧
      ∃ s r', (jobinfo tripleConf.cluster (jobKey 7 "a".toList)).run
          ⟨splitStart.store, insertJobinfoZht "a".toList 7 staleRecord, .ctrls⟩
          [.write, .write, .write, .write, .write, .read, .read, .read] = some s ∧
        s.build = .done r' ∧ r'.slots ≠ staleRecord.slots ∧
        s.store (jobKey 7 "a".toList) = some [] := by
  refine ⟨⟨_, rfl, by decide⟩, by decide, by decide, _, _, rfl, rfl, by decide, by decide⟩

end Claim

end Slurmpp.Controller
