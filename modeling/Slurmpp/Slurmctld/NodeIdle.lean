/-
  The idle nodes of a cluster.

  `make_node_alloc`, `make_node_comp`, `make_node_idle` and the two loops of suspension write `idle_node_bitmap`, each
  under its own condition.  The scheduler takes the nodes of this bitmap to have no job that runs or is completing.

  1. **One node** — `Settled` says that the bit is right; there is one lemma for each function.

  2. **Runs** — the bit stays right (`idle_nodes_never_completing`) unless a job ends that was suspended on an idle node:
     `make_node_comp` then leaves the bit, and the node is idle and completing (`suspended_job_ends_on_idle_node`).
-/
import Slurmpp.Slurmctld.NodeCounts

namespace Slurmpp.NodeJobs

open Bitstring Tally List Option

/-! ## One node -/

/-- The node responds, its bit of `idle_node_bitmap` is right, and so is its `COMPLETING` flag. -/
structure Settled (n : NodeRecord) : Prop where
  responds : n.noRespond = false
  idle : n.idleBit = true ↔ n.runJobCnt = 0 ∧ n.compJobCnt = 0
  flag : n.completing = true ↔ n.compJobCnt ≠ 0

section Node

variable {n : NodeRecord} {job : JobRecord}

theorem Settled.makeNodeAlloc (h : Settled n) (hrun : (makeNodeAlloc job n).runJobCnt ≠ 0) :
    Settled (makeNodeAlloc job n) := by
  unfold NodeJobs.makeNodeAlloc at hrun ⊢
  split_ifs at hrun ⊢ <;> exact ⟨h.responds, iff_of_false nofun fun h0 => hrun h0.1, h.flag⟩

theorem Settled.resumeNode (h : Settled n) (hrun : (resumeNode job n).runJobCnt ≠ 0) : Settled (resumeNode job n) := by
  unfold NodeJobs.resumeNode at hrun ⊢
  split_ifs at hrun ⊢ <;> exact ⟨h.responds, iff_of_false nofun fun h0 => hrun h0.1, h.flag⟩

theorem settled_settleBase (hresp : n.noRespond = false) (hidle : n.idleBit = false)
    (hflag : n.completing = true ↔ n.compJobCnt ≠ 0) : Settled (settleBase n) := by
  have hset : (n.idleBit || (n.runJobCnt == 0 && n.compJobCnt == 0)) = true ↔ n.runJobCnt = 0 ∧ n.compJobCnt = 0 := by
    simp [hidle]
  unfold settleBase
  dsimp only
  split_ifs <;> exact ⟨hresp, hset, hflag⟩

theorem compJobCnt_settleBase : (settleBase n).compJobCnt = n.compJobCnt := by
  unfold settleBase
  dsimp only
  split_ifs <;> rfl

theorem Settled.idle_false (h : Settled n) (hbusy : n.runJobCnt ≠ 0 ∨ n.compJobCnt ≠ 0) : n.idleBit = false := by
  rw [← Bool.not_eq_true, h.idle]
  exact fun h0 => hbusy.elim (· h0.1) (· h0.2)

theorem dropRun_eq (job : JobRecord) (n : NodeRecord) : ∃ run noShare share, dropRun job n =
    { n with runJobCnt := run, noShareJobCnt := noShare, shareBit := share } := by
  unfold dropRun
  split_ifs
  · exact ⟨_, _, _, rfl⟩
  · exact ⟨_, _, _, rfl⟩

theorem Settled.suspendNode (h : Settled n) (hrun : n.runJobCnt ≠ 0) : Settled (suspendNode job n) := by
  obtain ⟨run, noShare, share, hdrop⟩ := dropRun_eq job { n with susJobCnt := n.susJobCnt + 1 }
  rw [NodeJobs.suspendNode, hdrop]
  exact settled_settleBase h.responds (h.idle_false (.inl hrun)) h.flag

theorem Settled.makeNodeComp {suspended : Bool} (h : Settled n) (hup : n.base ≠ .down)
    (hbusy : n.runJobCnt ≠ 0 ∨ n.compJobCnt ≠ 0) (hcomp : (makeNodeComp job suspended n).compJobCnt ≠ 0) :
    Settled (makeNodeComp job suspended n) := by
  have hidle := h.idle_false hbusy
  obtain ⟨run, noShare, share, hdrop⟩ := dropRun_eq job n
  cases suspended with
  | true =>
    rw [NodeJobs.makeNodeComp, if_pos rfl, if_pos hup] at hcomp ⊢
    exact settled_settleBase h.responds hidle (iff_of_true rfl (compJobCnt_settleBase ▸ hcomp))
  | false =>
    rw [NodeJobs.makeNodeComp, if_neg Bool.false_ne_true, hdrop, if_pos hup] at hcomp ⊢
    exact settled_settleBase h.responds hidle (iff_of_true rfl (compJobCnt_settleBase ▸ hcomp))

theorem settled_settleIdle (hup : n.base ≠ .down) (hresp : n.noRespond = false)
    (hrun : n.runJobCnt ≠ 0 → n.idleBit = false)
    (hcomp : n.compJobCnt ≠ 0 → n.idleBit = false ∧ n.completing = true) : Settled (settleIdle n) := by
  unfold settleIdle
  by_cases hc : n.compJobCnt = 0
  · dsimp only
    rw [if_pos hc]
    rw [if_neg hup]
    by_cases hr : n.runJobCnt = 0
    · split_ifs <;> exact ⟨hresp, by simp_all, by simp [hc]⟩
    · split_ifs <;> exact ⟨hresp, by simp_all, by simp [hc]⟩
  · obtain ⟨hidle, hflag⟩ := hcomp hc
    dsimp only
    rw [if_neg hc, if_neg hup]
    split_ifs <;> exact ⟨hresp, by simp_all, iff_of_true hflag hc⟩

theorem Settled.leaveNode (h : Settled n) (hup : n.base ≠ .down) (hcomp : n.compJobCnt ≠ 0)
    (hrun : job.base ≠ .running) (hsus : job.base ≠ .suspended) : Settled (leaveNode job n) := by
  have hidle := h.idle_false (.inr hcomp)
  rw [leaveNode_eq hrun hsus]
  split_ifs with hpos
  · have hne : decNonzero n.compJobCnt ≠ 0 := (BitVec.pos_iff_ne_zero _).1 hpos
    exact ⟨h.responds, iff_of_false (Bool.eq_false_iff.1 hidle) fun h0 => hne h0.2, iff_of_true (h.flag.2 hcomp) hne⟩
  · exact settled_settleIdle hup h.responds (fun _ => hidle) fun hne => absurd ((BitVec.pos_iff_ne_zero _).2 hne) hpos

end Node

/-! ## Runs -/

/-- When the bits stay right: no node has 65535 jobs running, suspended or completing on it, and a suspended job that
    ends or is requeued holds no node without other jobs. -/
structure Quiet (s : Cluster) (a : Action) : Prop where
  room : ∀ i < s.nodes.length, s.jobs.countP (JobRecord.runsOn i) < 65535 ∧
    s.jobs.countP (JobRecord.suspendedOn i) < 65535 ∧ s.jobs.countP (JobRecord.awaits i) < 65535
  busy : ∀ job, s.jobs[a.job]? = some job → a = .finish a.job ∨ a = .requeue a.job ∧ requeueRefused job = false →
    ∀ i n, s.nodes[i]? = some n → job.suspendedOn i = true → n.runJobCnt ≠ 0 ∨ n.compJobCnt ≠ 0

variable {s t : Cluster} {nodes nodes' : List NodeRecord} {job job' : JobRecord} {n : NodeRecord} {a : Action} {b : Bitstr}
  {f : NodeRecord → NodeRecord} {i : Nat}

theorem Quiet.roomy (h : Quiet s a) (hs : Exact s) : Roomy s a := fun t ht i hi => by
  obtain ⟨job, hjob, ht⟩ := bind_eq_some_iff.1 ht
  split_ifs at ht with hen
  obtain ⟨⟨nodes', job'⟩, hact, rfl⟩ := map_eq_some_iff.1 ht
  have hlaw := lawful_act (hs.jobs job (mem_of_getElem? hjob)) hs.up hen hact
  obtain ⟨hrun, hsus, hcomp⟩ := h.room i (hlaw.length_eq ▸ hi)
  have hle : ∀ p : JobRecord → Bool, s.jobs.countP p < 65535 → (s.jobs.set a.job job').countP p ≤ 65535 := fun p hp => by
    have hbit := (p job').toNat_le
    rw [countP_eraseIdx hjob] at hp
    rw [countP_set hjob]
    omega
  exact ⟨hle _ hrun, hle _ hsus, hle _ hcomp⟩

theorem Exact.run_ne_zero (h : Exact s) (hi : s.nodes[i]? = some n) (hjob : job ∈ s.jobs) (hruns : job.runsOn i = true) :
    n.runJobCnt ≠ 0 :=
  (ne_zero_iff (h.nodes i n hi).run).2 (List.countP_pos_iff.2 ⟨job, hjob, hruns⟩)

theorem Exact.comp_ne_zero (h : Exact s) (hi : s.nodes[i]? = some n) (hjob : job ∈ s.jobs)
    (hawaits : job.awaits i = true) : n.compJobCnt ≠ 0 :=
  (ne_zero_iff (h.nodes i n hi).comp).2 (List.countP_pos_iff.2 ⟨job, hjob, hawaits⟩)

theorem settled_onNodes (h : ∀ n ∈ nodes, Settled n)
    (hf : ∀ i n, nodes[i]? = some n → (onNodes b f nodes)[i]? = some (f n) → bitTest b i = true → Settled n →
      Settled (f n)) : ∀ n ∈ onNodes b f nodes, Settled n := by
  intro n' hn'
  obtain ⟨i, hi⟩ := mem_iff_getElem?.1 hn'
  have hmap := hi
  rw [onNodes, getElem?_mapIdx, map_eq_some_iff] at hmap
  obtain ⟨n, hn, hn'⟩ := hmap
  split_ifs at hn' with hbit
  · exact hn' ▸ hf i n hn (hn' ▸ hi) hbit (h n (mem_of_getElem? hn))
  · exact hn' ▸ h n (mem_of_getElem? hn)

theorem settled_release {suspended : Bool} (hs : Exact s) (ht : Exact t) (h : ∀ n ∈ s.nodes, Settled n)
    (hnodes : t.nodes = onNodes b (makeNodeComp job suspended) s.nodes) (hmem : job' ∈ t.jobs)
    (hcg : job'.nodeBitmapCg = some b)
    (hbusy : ∀ i n, s.nodes[i]? = some n → bitTest b i = true → n.runJobCnt ≠ 0 ∨ n.compJobCnt ≠ 0) :
    ∀ n ∈ t.nodes, Settled n := by
  rw [hnodes]
  refine settled_onNodes h fun i n hn hn' hbit hset => ?_
  rw [← hnodes] at hn'
  refine hset.makeNodeComp (hs.nodes i n hn).up (hbusy i n hn hbit) (ht.comp_ne_zero hn' hmem ?_)
  rw [(ht.jobs job' hmem).awaits_eq hcg (List.getElem?_eq_some_iff.1 hn').1, hbit]

theorem Settled.drainNode (h : Settled n) : Settled (drainNode n) := by
  unfold NodeJobs.drainNode
  split_ifs
  · exact h
  · exact ⟨h.responds, h.idle, h.flag⟩

theorem settled_makeNodeIdle {cg : Bitstr} {inx count : Nat} {n' : NodeRecord} (hok : JobOk count job)
    (hcg : job.nodeBitmapCg = some cg) (hinx : inx < count) (h : Settled n) (hup : n.base ≠ .down)
    (hcomp : job.awaits inx = true → n.compJobCnt ≠ 0) (hs : makeNodeIdle inx job n = some (n', job')) : Settled n' := by
  unfold makeNodeIdle at hs
  rw [hcg] at hs
  dsimp only at hs
  split at hs
  next hbit =>
    obtain ⟨cg', -, hpair⟩ := map_eq_some_iff.1 hs
    cases hpair
    obtain ⟨-, hrun, hsus⟩ := hok.completing hcg hinx hbit
    refine h.leaveNode hup (hcomp (by rw [hok.awaits_eq hcg hinx, hbit])) ?_ ?_
    · rw [base_countDown]
      exact hrun
    · rw [base_countDown]
      exact hsus
  next hbit =>
    cases hs
    exact settled_settleIdle hup h.responds (fun hr => h.idle_false (.inl hr))
      fun hc => ⟨h.idle_false (.inr hc), h.flag.2 hc⟩

theorem busy_of_active (hs : Exact s) (hmem : job ∈ s.jobs) (hact : job.base = .running ∨ job.base = .suspended)
    (hm : job.nodeBitmap = some b)
    (hbusy : ∀ i n, s.nodes[i]? = some n → job.suspendedOn i = true → n.runJobCnt ≠ 0 ∨ n.compJobCnt ≠ 0)
    (hi : s.nodes[i]? = some n) (hbit : bitTest b i = true) : n.runJobCnt ≠ 0 ∨ n.compJobCnt ≠ 0 := by
  obtain hrun | hsus := hact
  · exact .inl (hs.run_ne_zero hi hmem (by simp [JobRecord.runsOn, JobRecord.holds, hrun, hm, hbit]))
  · exact hbusy i n hi (by simp [JobRecord.suspendedOn, JobRecord.holds, hsus, hm, hbit])

/-- **The step lemma**. -/
theorem settled_step (hs : Exact s) (ht : Exact t) (h : ∀ n ∈ s.nodes, Settled n) (hq : Quiet s a)
    (hstep : life.step s a = some t) : ∀ n ∈ t.nodes, Settled n := by
  obtain ⟨job, hjob, hstep⟩ := bind_eq_some_iff.1 hstep
  split_ifs at hstep with hen
  obtain ⟨⟨nodes', job'⟩, hact, rfl⟩ := map_eq_some_iff.1 hstep
  have hmem : job ∈ s.jobs := mem_of_getElem? hjob
  have hmem' : job' ∈ s.jobs.set a.job job' := List.mem_set (List.getElem?_eq_some_iff.1 hjob).1 _
  have hok := hs.jobs job hmem
  cases a with
  | start j b =>
    simp only [act, startJob, allocateNodes, map_some, some.injEq, Prod.mk.injEq] at hact
    obtain ⟨rfl, rfl⟩ := hact
    refine settled_onNodes h fun i n hn hn' hbit hset => hset.makeNodeAlloc (ht.run_ne_zero hn' hmem' ?_)
    simpa [JobRecord.runsOn, JobRecord.holds] using hbit
  | suspend j =>
    unfold act suspendJob at hact
    split_ifs at hact with hrun
    · obtain ⟨b, hm, hpair⟩ := map_eq_some_iff.1 hact
      cases hpair
      refine settled_onNodes h fun i n hn _ hbit hset => hset.suspendNode (hs.run_ne_zero hn hmem ?_)
      simpa [JobRecord.runsOn, JobRecord.holds, hrun, hm] using hbit
    · cases hact
      exact h
  | resume j =>
    unfold act resumeJob at hact
    split_ifs at hact with hsus
    · obtain ⟨b, hm, hpair⟩ := map_eq_some_iff.1 hact
      split_ifs at hpair
      · cases hpair
        exact h
      · cases hpair
        refine settled_onNodes h fun i n hn hn' hbit hset => hset.resumeNode (ht.run_ne_zero hn' hmem' ?_)
        simpa [JobRecord.runsOn, JobRecord.holds, hm] using hbit
    · cases hact
      exact h
  | finish j =>
    obtain ⟨-, b, hm, hb, -⟩ := hok.held hen.1
    obtain ⟨hnodes, hj⟩ := giveUpNodes_eq hs.up hact hm hb
    exact settled_release hs ht h hnodes hmem' (by rw [hj]) fun i n =>
      busy_of_active hs hmem hen.1 hm (hq.busy job hjob (.inl rfl))
  | requeue j =>
    unfold act jobRequeue at hact
    split_ifs at hact with href
    · cases hact
      exact h
    obtain ⟨⟨nodes2, job2⟩, h2, hpair⟩ := map_eq_some_iff.1 hact
    obtain ⟨hactive, -⟩ := active_of_not_refused href
    obtain ⟨-, b, hm, hb, -⟩ := hok.held hactive
    obtain ⟨hnodes, hj⟩ := giveUpNodes_eq hs.up h2 hm hb
    obtain ⟨rfl, hj'⟩ := Prod.mk.inj hpair
    exact settled_release hs ht h hnodes hmem' (by rw [← hj', hj]) fun i n =>
      busy_of_active hs hmem hactive hm (hq.busy job hjob (.inr ⟨rfl, Bool.eq_false_iff.2 href⟩))
  | epilog j inx returnCode =>
    rw [act] at hact
    revert hact
    fun_cases jobEpilogComplete with
    | case1 | case2 =>
      rintro ⟨⟩
      exact h
    | case3 hlook n hn =>
      intro hact
      obtain ⟨cg, hcg⟩ := hok.exists_cg hen hlook
      obtain ⟨⟨n', job2⟩, hidle, hpair⟩ := map_eq_some_iff.1 hact
      cases hpair
      have hshow := hs.nodes inx n hn
      have hset := h n (mem_of_getElem? hn)
      have hdrain : ∀ m, m = (if returnCode ≠ 0 then drainNode n else n) → Settled m ∧ Shows m (s.load inx) := by
        intro m hm
        split_ifs at hm
        · exact hm ▸ ⟨hset.drainNode, hshow.drainNode⟩
        · exact hm ▸ ⟨hset, hshow⟩
      obtain ⟨hset', hshow'⟩ := hdrain _ rfl
      have hn' : Settled n' :=
        settled_makeNodeIdle hok hcg (List.getElem?_eq_some_iff.1 hn).1 hset' hshow'.up (fun hawaits =>
          (ne_zero_iff hshow'.comp).2 (List.countP_pos_iff.2 ⟨job, hmem, hawaits⟩)) hidle
      intro m hm
      obtain hold | rfl := mem_or_eq_of_mem_set hm
      · exact h m hold
      · exact hn'
  | share j details =>
    cases hact
    exact h

/-- **Idle nodes are never completing**: in every run of quiet steps a node has its bit of `idle_node_bitmap` exactly if
    no job runs there or is completing there. -/
theorem idle_nodes_never_completing {s₀ : Cluster} (h₀ : Fresh s₀) (hset : ∀ n ∈ s₀.nodes, Settled n)
    (h : life.Reach Quiet s₀ s) (i : Nat) (n : NodeRecord) (hi : s.nodes[i]? = some n) :
    (n.idleBit = true ↔ n.runJobCnt = 0 ∧ n.compJobCnt = 0) ∧ ¬(n.idleBit = true ∧ n.cgBit = true) := by
  have hinv : Exact s ∧ ∀ n ∈ s.nodes, Settled n :=
    h.invariant (I := fun s => Exact s ∧ ∀ n ∈ s.nodes, Settled n) ⟨exact_of_fresh h₀, hset⟩ fun _ _ _ ⟨hs, hn⟩ hq hstep =>
      have ht := exact_step hs (hq.roomy hs) hstep
      ⟨ht, settled_step hs ht hn hq hstep⟩
  have hn := hinv.2 n (mem_of_getElem? hi)
  refine ⟨hn.idle, fun ⟨hidle, hcg⟩ => ?_⟩
  have hpos := (hinv.1.nodes i n hi).cg.1 hcg
  exact (ne_zero_iff (hinv.1.nodes i n hi).comp).2 hpos (hn.idle.1 hidle).2

/-- A job is suspended on a node on which another one starts, and ends there. -/
theorem idle_nodes_never_completing_shared : ∃ s n, life.run ⟨[idleNode], [aloneJob, aloneJob]⟩
      [.start 0 firstNode, .suspend 0, .start 1 firstNode, .finish 0] = some s ∧
    s.nodes[0]? = some n ∧ n.compJobCnt = 1 ∧ ¬(n.idleBit = true ∧ n.cgBit = true) := by
  have h₁ : life.Reach Quiet ⟨[idleNode], [aloneJob, aloneJob]⟩ _ :=
    .step (a := .start 0 firstNode) .start ⟨by decide, fun _ _ h => by simp at h⟩ rfl
  have h₂ := h₁.step (a := .suspend 0) ⟨by decide, fun _ _ h => by simp at h⟩ rfl
  have h₃ := h₂.step (a := .start 1 firstNode) ⟨by decide, fun _ _ h => by simp at h⟩ rfl
  have h₄ := h₃.step (a := .finish 0) ⟨by decide, fun _ _ _ i n hn _ => by
    obtain rfl : i = 0 := Nat.lt_one_iff.1 (List.getElem?_eq_some_iff.1 hn).1
    cases hn
    decide⟩ rfl
  refine ⟨_, _, rfl, rfl, by decide, (idle_nodes_never_completing (fresh_cluster 1 2) ?_ h₄ 0 _ rfl).2⟩
  intro n hn
  cases mem_singleton.1 hn
  exact ⟨rfl, by decide, by decide⟩

/-- A suspended job ends on a node without other jobs: the node is idle, and completing. -/
theorem suspended_job_ends_on_idle_node : ∃ s n, life.run ⟨[idleNode], [aloneJob]⟩
      [.start 0 firstNode, .suspend 0, .finish 0] = some s ∧ s.nodes[0]? = some n ∧
    n.idleBit = true ∧ n.cgBit = true ∧ n.compJobCnt = 1 := by
  exact ⟨_, _, rfl, rfl, by decide, by decide, by decide⟩

end Slurmpp.NodeJobs
