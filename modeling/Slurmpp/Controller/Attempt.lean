/-
  What `allocate_res` returns (`pro_req.c`), and what it keeps of an attempt that it abandons.

  1. **One batch** — `update_job_resource` appends each batch of nodes to `nodelist` with no comma in between, so the
     names of a record are those it counts only when all of them come in one batch (`allocation_answers`).
  2. **Abandoned attempts** — `reset_job_resource` keeps `num_ctrl`: the record is the new one only when nothing was
     filed (`abandoning_clean_iff`).
-/
import Slurmpp.Controller.Record

namespace Slurmpp.Controller

open List Option Function

open Text (words joined IsWord)

variable {π ι : Type*} [DecidableEq π] [DecidableEq ι] {C : Conf π ι} {s₀ s t : World π ι}

/-- What `allocate_res` promises its callers, who read `nodelist` as a list of names. -/
structure JobResource.Answers (r : JobResource) (need : Nat) : Prop where
  numNode : r.numNode = need
  count : (words ',' r.nodelist).length = need
  nodup : (words ',' r.nodelist).Nodup
  alloc : ∀ n, n ∈ words ',' r.nodelist ↔ ∃ j, n ∈ words ',' (r.nodeAlloc.getD j [])

/-- A pool of distinct names that has all the nodes a job needs. -/
def Enough (need : Nat) (v : Text) : Prop := Counted v (namesOf v) ∧ (namesOf v).Nodup ∧ need ≤ (namesOf v).length

/-- **One batch.**  Nodes are taken from pools that have all the job needs. -/
def Conf.OneBatch (C : Conf π ι) (s : World π ι) : Label π → Prop
  | .act p _ =>
    match s.proc p with
    | .take r c seen =>
      s.store c = some seen → C.cluster.doAllocate seen (C.need p - r.numNode) ≠ .refused → Enough (C.need p) seen
    | _ => True
  | _ => True

/-- A record in `allocate_res` into which nothing was filed. -/
def Cluster.Untouched (K : Cluster) (r : JobResource) : Prop := r = { K.initJobResource with numTry := r.numTry }

/-- Threads in `allocate_res` have filed nothing, and those back from it have what they need. -/
def Cluster.Served (K : Cluster) (need : Nat) : Proc → Prop
  | .look r _ | .take r _ _ => K.Untouched r
  | .abandon _ _ => False
  | .holding r => r.Answers need
  | _ => True

variable {K : Cluster} {need rand num : Nat} {r r' : JobResource} {selfId c seen nl new : Text}

theorem served_loopHead (hneed : 0 < need) (h : K.Untouched r) : K.Served need (K.loopHead need rand r) := by
  have hzero : r.numNode < need := by
    rw [h]
    exact hneed
  rw [Cluster.loopHead]
  split
  · trivial
  · rw [if_pos hzero]
    exact h

theorem served_again (hneed : 0 < need) (h : K.Untouched r) : K.Served need (K.again need rand r) := by
  rw [Cluster.again, releaseFrom]
  have hnone : ¬0 < r.numCtrl := by
    rw [h]
    exact Nat.lt_irrefl 0
  rw [if_neg hnone]
  split_ifs
  · refine served_loopHead hneed ?_
    rw [h]
    rfl
  · exact served_loopHead hneed h

theorem answers_update (h : K.Untouched r) (hseen : Enough need seen)
    (ha : K.doAllocate seen (need - r.numNode) = .swap num nl new)
    (hu : K.updateJobResource selfId r num c nl = some r') : r'.Answers need := by
  obtain ⟨hcounted, hnodup, henough⟩ := hseen
  have hzero : r.numNode = 0 := by rw [h]; rfl
  rw [hcounted.doAllocate, hzero, Nat.sub_zero, min_eq_right henough] at ha
  split_ifs at ha
  cases ha
  have hwords : words ',' (joined ',' ((namesOf seen).take need)) = (namesOf seen).take need :=
    Text.words_joined fun n hm => hcounted.isWord n (mem_of_mem_take hm)
  have hempty : r.ctrlIds2.getD 0 [] = [] := by
    rw [h]
    exact getD_replicate_nil _ 0
  obtain ⟨hcharged, ⟨-, -, hlen, -, -, hallocs, -⟩ | ⟨i, hfind, -⟩⟩ := update_cases hu
  · have hlist : r'.nodelist = joined ',' ((namesOf seen).take need) := by
      rw [hcharged.nodelist, h]
      rfl
    refine ⟨?_, ?_, ?_, fun n => ?_⟩
    · rw [hcharged.numNode, hzero, Nat.zero_add]
    · rw [hlist, hwords, length_take, min_eq_left henough]
    · rw [hlist, hwords]
      exact hnodup.sublist (take_sublist _ _)
    · have hslot : ∀ j, r'.nodeAlloc.getD j [] =
          if j = r.numCtrl then joined ',' ((namesOf seen).take need) ++ [','] else [] := by
        intro j
        have hnil : ∀ j, r.nodeAlloc.getD j [] = [] := by
          rw [h]
          exact getD_replicate_nil _
        rw [hallocs, getD_appendAt hlen, hnil, hnil, nil_append]
      rw [hlist]
      constructor
      · intro hn
        refine ⟨r.numCtrl, ?_⟩
        rw [hslot, if_pos rfl, Text.words_append_delim_nil]
        exact hn
      · rintro ⟨j, hn⟩
        rw [hslot] at hn
        split_ifs at hn
        · rwa [Text.words_append_delim_nil] at hn
        · simp at hn
  · rw [findExist_of_empty hempty] at hfind
    cases hfind

theorem Conf.served_step (hneed : ∀ p, 0 < C.need p) (h : ∀ p, C.cluster.Served (C.need p) (s.proc p))
    {l : Label π} (hl : C.OneBatch s l) (hs : (allocator C).step s l = some t) :
    ∀ p, C.cluster.Served (C.need p) (t.proc p) := by
  have hset : ∀ p q, C.cluster.Served (C.need p) q → ∀ p', C.cluster.Served (C.need p') (update s.proc p q p') :=
    fun p q hq => (forall_update_iff _ fun p' (q : Proc) => C.cluster.Served (C.need p') q).2 ⟨hq, fun p' _ => h p'⟩
  cases l with
  | start p =>
    obtain ⟨-, rfl⟩ := start_eq hs
    refine hset p _ ?_
    rw [Cluster.begin, if_pos (hneed p)]
    exact rfl
  | complete p r =>
    obtain rfl := complete_eq hs
    refine hset p _ ?_
    rw [Proc.beginRelease, releaseFrom]
    split_ifs <;> trivial
  | insert k v =>
    cases hs
    exact h
  | act p rand =>
    obtain ⟨o, ho, rfl⟩ := map_eq_some_iff.1 hs
    refine hset p _ ?_
    have hp := h p
    have hst := Cluster.act_step ho
    rw [Conf.OneBatch] at hl
    generalize s.proc p = q at hst hp hl
    have hfailed : ∀ r, C.cluster.Untouched r → C.cluster.Untouched (Cluster.failed r) := by
      intro r hr
      rw [hr]
      rfl
    cases hst with
    | missing r | refused r => exact served_again (hneed p) (hfailed r hp)
    | found | late => exact hp
    | broken | spilled => trivial
    | abandon r pc o hr => exact hp.elim
    | release r pc o hr =>
      dsimp only
      cases o.next with
      | error f => trivial
      | ok e => cases e <;> trivial
    | took r r' c seen num nl new ha hv hu =>
      have hanswer := answers_update hp (hl hv (by rw [ha]; simp)) ha hu
      have htry : ¬3 < r'.numTry := by rw [(update_cases hu).1.numTry]; omega
      dsimp only
      rw [Cluster.again, if_neg htry, Cluster.loopHead]
      split
      · trivial
      · rw [if_neg (by rw [hanswer.numNode]; exact lt_irrefl _)]
        exact hanswer

/-- **What `allocate_res` returns.**  In every run in which nodes are only taken from pools that have all the job needs,
    a returned record counts the nodes the job needs, and its `nodelist` reads as that many different names, those of
    `node_alloc`. -/
theorem allocation_answers (h0 : ∀ p, s₀.proc p = .idle) (hneed : ∀ p, 0 < C.need p)
    (h : (allocator C).Reach C.OneBatch s₀ s) {p : π} {r : JobResource} (hp : s.proc p = .holding r) :
    r.Answers (C.need p) := by
  have hserved : ∀ p, C.cluster.Served (C.need p) (s.proc p) :=
    h.invariant (I := fun u => ∀ p, C.cluster.Served (C.need p) (u.proc p))
      (fun p => by rw [h0 p]; trivial) fun u l v hu hl hs => C.served_step hneed hu hl hs
  have := hserved p
  rw [hp] at this
  exact this

theorem allocation_answers_pair :
    ∃ s, (allocator pairConf).Reach pairConf.OneBatch pairStart s ∧ s.proc 0 = .holding pairRecord ∧
      pairRecord.Answers 1 := by
  have hr : (allocator pairConf).Reach pairConf.OneBatch pairStart _ :=
    .step (.step (.step .start (a := .start 0) trivial rfl) (a := .act 0 0) trivial rfl) (a := .act 0 0)
      (fun _ _ => ⟨by decide, by decide, by decide⟩) rfl
  exact ⟨_, hr, by decide, allocation_answers (p := 0) (fun _ => rfl) (by decide) hr (by decide)⟩

/-- **Two batches run into each other**: of `n1` and `m1` the record makes the one name `n1m1`. -/
theorem batches_not_separated :
    ∃ s r, (allocator splitConf).run splitStart [.start 0, .act 0 0, .act 0 1, .act 0 0, .act 0 0] = some s ∧
      s.proc 0 = .holding r ∧ r.numNode = splitConf.need 0 ∧ words ',' r.nodelist = ["n1m1".toList] ∧
      ¬r.Answers (splitConf.need 0) := by
  refine ⟨_, ⟨0, 2, "n1m1".toList, "a,".toList, 1, ["a".toList, []], ["n1,".toList, "m1,".toList],
    true⟩, rfl, by decide, rfl, by decide, fun h => ?_⟩
  exact absurd h.count (by decide)

/-! ## Abandoned attempts -/

/-- The batches `(num, ctrl, nodelist)` filed one after the other. -/
def Cluster.fileAll (K : Cluster) (selfId : Text) (r : JobResource) (batches : List (Nat × Text × Text)) :
    Option JobResource :=
  batches.foldlM (fun r b => K.updateJobResource selfId r b.1 b.2.1 b.2.2) r

/-- A record that counts no empty slot, and none but that of a controller. -/
structure JobResource.Sound (K : Cluster) (r : JobResource) : Prop where
  tidy : r.Tidy K
  clean : r.Clean
  first : r.ctrlIds2.getD 0 [] ≠ [] → r.ctrlIds2.getD 0 [] ∈ K.memList

theorem JobResource.Sound.numCtrl_le (h : r.Sound K) : r.numCtrl ≤ K.numCtrl := by
  by_cases h0 : r.ctrlIds2.getD 0 [] = []
  · rw [h.clean h0]
    exact Nat.zero_le _
  · rw [(h.tidy.single h0).1]
    exact length_pos_of_mem (h.first h0)

theorem JobResource.Sound.update (h : r.Sound K) (selfId : Text) (n : Nat) (nl : Text) (hmem : c ∈ K.memList)
    (hc : c ≠ []) : ∃ r', K.updateJobResource selfId r n c nl = some r' ∧ r'.Sound K := by
  have hK : 0 < K.numCtrl := length_pos_of_mem hmem
  have hroom : r.ctrlIds2.getD 0 [] = [] ∨ r.ctrlIds2.getD 0 [] = c ∨ 2 ≤ K.numCtrl := by
    by_contra hno
    push Not at hno
    obtain ⟨hne, hother, hlt⟩ := hno
    -- there is one controller only, and it is both
    obtain ⟨a, ha⟩ := length_eq_one_iff.1 (show K.numCtrl = 1 by omega)
    have hfirst := h.first hne
    rw [ha, mem_singleton] at hmem hfirst
    exact hother (hfirst.trans hmem.symm)
  obtain ⟨r', hu⟩ := ne_none_iff_exists'.1 (update_ne_none hK h.tidy h.clean hroom)
  have hfirst : r'.ctrlIds2.getD 0 [] ∈ K.memList ∧ r'.ctrlIds2.getD 0 [] ≠ [] := by
    rw [first_update hK h.tidy h.clean hu]
    split_ifs with h0
    · exact ⟨hmem, hc⟩
    · exact ⟨h.first h0, h0⟩
  exact ⟨r', hu, h.tidy.update hu, fun h0 => absurd h0 hfirst.2, fun _ => hfirst.1⟩

theorem JobResource.Sound.fileAll (h : r.Sound K) (selfId : Text) {batches : List (Nat × Text × Text)}
    (hb : ∀ b ∈ batches, b.2.1 ∈ K.memList ∧ b.2.1 ≠ []) :
    ∃ r', K.fileAll selfId r batches = some r' ∧ r'.Sound K := by
  induction batches generalizing r with
  | nil => exact ⟨r, rfl, h⟩
  | cons b batches ih =>
    obtain ⟨hmem, hc⟩ := hb b mem_cons_self
    obtain ⟨r₁, hfirst, h₁⟩ := h.update selfId b.1 b.2.2 hmem hc
    obtain ⟨r₂, hrest, h₂⟩ := ih h₁ (forall_mem_cons.1 hb).2
    refine ⟨r₂, ?_, h₂⟩
    rw [Cluster.fileAll, foldlM_cons, hfirst]
    exact hrest

/-- **Abandoning an attempt is clean exactly when nothing was filed.**  The record is then the new one, and whatever
    is filed next goes as into a new record and stays inside the arrays. -/
theorem abandoning_clean_iff (K : Cluster) (r : JobResource) :
    (K.resetJobResource r = K.initJobResource ∧
      ∀ selfId batches, (∀ b ∈ batches, b.2.1 ∈ K.memList ∧ b.2.1 ≠ []) → ∃ r',
        K.fileAll selfId (K.resetJobResource r) batches = some r' ∧
        K.fileAll selfId K.initJobResource batches = some r' ∧ r'.numCtrl ≤ K.numCtrl) ↔
    r.numCtrl = 0 := by
  constructor
  · rintro ⟨hsame, -⟩
    exact congrArg JobResource.numCtrl hsame
  · intro hzero
    have hsame : K.resetJobResource r = K.initJobResource := by
      rw [Cluster.resetJobResource, hzero]
      rfl
    have hsound : K.initJobResource.Sound K :=
      ⟨(blank_init K).tidy, fun _ => rfl, fun h => absurd (getD_replicate_nil _ 0) h⟩
    refine ⟨hsame, fun selfId batches hb => ?_⟩
    obtain ⟨r', heq, h'⟩ := hsound.fileAll selfId hb
    exact ⟨r', by rw [hsame, heq], heq, h'.numCtrl_le⟩

/-- **A second attempt leaves the arrays.**  With one controller, an attempt that has got one of two nodes is abandoned;
    the next node is then filed in a second slot. -/
theorem abandoned_slot_counted :
    ((allocator { soloConf with need := fun _ => 2 }).run
      { soloSite.world with store := Store.insert (fun _ => none) "a".toList "1,n1".toList }
      (.start 0 :: replicate 14 (.act 0 0))).map (·.proc 0) = some (.fault .slot) := by
  decide

end Slurmpp.Controller
