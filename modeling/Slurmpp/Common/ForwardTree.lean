/-
  The head of a message tree: `start_msg_tree` with the threads it starts (`_fwd_tree_thread` of
  `src/common/forward.c`).

  The caller is that of `MsgTree`; a thread joins when it is created and takes one off `thr_count` at its end.
  In every run the records in the return list and the hosts that the threads owe are the hosts that have been
  handed out (`Head.Kept.books`); the caller returns when it has handed out all of them and no thread is left,
  and then the list has one record for each host.
-/
import Slurmpp.Common.ForwardWait

namespace Slurmpp.Forward

open List Option

open MsgTree (callerStep callerStep_launched setSpan)

variable {α : Type}

/-! ## The machine -/

structure Head (α : Type) where
  tree : MsgTree.Tree α
  threads : List (Phase α)
  retList : List (RetDataInfo α)

inductive HeadMove (α : Type)
  | caller
  | attempt (i : Nat) (a : Attempt α)
  | commit (i : Nat)
  | finish (i : Nat)

def msgTree [DecidableEq α] (span : List Nat) : Machine (Head α) (HeadMove α) where
  step s m :=
    match m with
    | .caller =>
      match callerStep span s.tree with
      | none => none
      | some tree =>
        if s.tree.pc = .create then some { s with tree := tree, threads := s.threads ++ [.shift s.tree.treeHl] }
        else some { s with tree := tree }
    | .attempt i a =>
      match s.threads[i]? with
      | some (.shift (name :: hl)) => some { s with threads := s.threads.set i (treeTurn name hl a) }
      | _ => none
    | .commit i =>
      -- list_transfer, with the lock
      match s.threads[i]? with
      | some (.push _ todo rest) =>
        some { s with retList := s.retList ++ todo, threads := s.threads.set i (.shift rest) }
      | _ => none
    | .finish i =>
      -- _destroy_tree_fwd
      match s.threads[i]? with
      | some (.shift []) =>
        some { s with
          tree := { s.tree with running := s.tree.running - 1, thrCount := s.tree.thrCount - 1 }
          threads := s.threads.set i .done }
      | _ => none

def Head.initial (hl : List α) : Head α := ⟨.initial hl, [], []⟩

/-- All hosts are handed out and `thr_count` is zero: the caller returns the list. -/
def Head.Returned (s : Head α) : Prop := s.tree.pc = .done ∧ s.tree.thrCount = 0

/-- A reply is missing, partial or complete, and the host was sent the count of the hosts it answers for. -/
def Attempt.Counted (hl : List α) : Attempt α → Prop
  | .contact (.sent r) => names r.retList ≤ hosts hl ∧ hl.length < 2 ^ 16
  | _ => True

def HeadMove.Counted (s : Head α) : HeadMove α → Prop
  | .attempt i a => ∀ name hl, s.threads[i]? = some (.shift (name :: hl)) → a.Counted hl
  | _ => True

section
variable {span : List Nat} {i : Nat} {s t : Head α} {m : HeadMove α} {hl : List α}

/-! ## The law -/

def Phase.TreeOk : Phase α → Prop
  | .shift hl => hl.Nodup
  | .push marks _ rest => marks = [] ∧ rest.Nodup
  | .done => True

/-- One for a thread that has not ended. -/
def Phase.alive : Phase α → Nat
  | .done => 0
  | _ => 1

/-- **The invariant.** -/
structure Head.Kept (span : List Nat) (hl : List α) (s : Head α) : Prop where
  spread : ∃ level, s.tree.Spread span hl level
  running : s.tree.running = (s.threads.map Phase.alive).sum
  books : names s.retList + (s.threads.map Phase.owed).sum = hosts s.tree.launched.flatten
  phases : ∀ p ∈ s.threads, p.TreeOk

theorem Head.Kept.thread {p : Phase α} (h : s.Kept span hl) (tree : MsgTree.Tree α) (p' : Phase α)
    (todo : List (RetDataInfo α)) (hi : s.threads[i]? = some p) (howed : p.owed = names todo + p'.owed) (hok : p'.TreeOk)
    (hspread : ∃ level, tree.Spread span hl level) (hrunning : tree.running + p.alive = s.tree.running + p'.alive)
    (hlaunched : tree.launched = s.tree.launched) :
    Head.Kept span hl ⟨tree, s.threads.set i p', s.retList ++ todo⟩ where
  spread := hspread
  running := by
    have hsum := sum_map_set Phase.alive (b := p') hi
    have := h.running
    dsimp only
    omega
  books := by
    rw [names_append, add_assoc, owed_set hi howed, h.books, hlaunched]
  phases q hq := by
    rcases mem_or_eq_of_mem_set hq with hq | rfl
    · exact h.phases q hq
    · exact hok

theorem Head.kept_initial (span : List Nat) (hl : List α) : (Head.initial hl).Kept span hl where
  spread := ⟨0, MsgTree.Tree.spread_initial⟩
  running := rfl
  books := rfl
  phases _ hp := absurd hp not_mem_nil

/-- **When the caller returns** there is one record for each host. -/
theorem Head.Kept.names_of_returned (h : s.Kept span hl) (hret : s.Returned) : names s.retList = hosts hl := by
  obtain ⟨level, hs⟩ := h.spread
  have hrunning : s.tree.running = 0 := by
    have := hs.count
    have := hret.2
    omega
  have halive : ∀ p ∈ s.threads, p.alive = 0 := fun p hp =>
    sum_eq_zero_iff.1 (h.running.symm.trans hrunning) _ (mem_map_of_mem hp)
  have hzero : (s.threads.map Phase.owed).sum = 0 := by
    refine sum_eq_zero (List.forall_mem_map.2 fun p hp => ?_)
    cases p with
    | done => rfl
    | shift | push => exact absurd (halive _ hp) (by simp [Phase.alive])
  rw [← hs.launched_eq hret.1, ← h.books, hzero, add_zero]

/-! ## Steps -/

variable [DecidableEq α]

theorem msgTree_step (h : (msgTree span).step s m = some t) :
    (m = .caller ∧ ∃ tree, callerStep span s.tree = some tree ∧
        (s.tree.pc = .create → t = { s with tree := tree, threads := s.threads ++ [.shift s.tree.treeHl] }) ∧
        (s.tree.pc ≠ .create → t = { s with tree := tree })) ∨
      (∃ i a name hl, m = .attempt i a ∧ s.threads[i]? = some (.shift (name :: hl)) ∧
        t = { s with threads := s.threads.set i (treeTurn name hl a) }) ∨
      (∃ i marks todo rest, m = .commit i ∧ s.threads[i]? = some (.push marks todo rest) ∧
        t = { s with retList := s.retList ++ todo, threads := s.threads.set i (.shift rest) }) ∨
      (∃ i, m = .finish i ∧ s.threads[i]? = some (.shift []) ∧
        t = { s with
          tree := { s.tree with running := s.tree.running - 1, thrCount := s.tree.thrCount - 1 }
          threads := s.threads.set i .done }) := by
  cases m with
  | caller =>
    dsimp only [msgTree] at h
    split at h
    · cases h
    · rename_i tree htree
      refine .inl ⟨rfl, tree, htree, fun hpc => ?_, fun hpc => ?_⟩
      · rw [if_pos hpc] at h
        exact (some.inj h).symm
      · rw [if_neg hpc] at h
        exact (some.inj h).symm
  | attempt i a =>
    dsimp only [msgTree] at h
    split at h
    · rename_i name hl hi
      exact .inr (.inl ⟨i, a, name, hl, rfl, hi, (some.inj h).symm⟩)
    · cases h
  | commit i =>
    dsimp only [msgTree] at h
    split at h
    · rename_i marks todo rest hi
      exact .inr (.inr (.inl ⟨i, marks, todo, rest, rfl, hi, (some.inj h).symm⟩))
    · cases h
  | finish i =>
    dsimp only [msgTree] at h
    split at h
    · rename_i hi
      exact .inr (.inr (.inr ⟨i, rfl, hi, (some.inj h).symm⟩))
    · cases h

theorem msgTree_attempt {name : α} {rest : List α} (a : Attempt α) (hi : s.threads[i]? = some (.shift (name :: rest))) :
    (msgTree span).step s (.attempt i a) = some { s with threads := s.threads.set i (treeTurn name rest a) } := by
  dsimp only [msgTree]
  rw [hi]

theorem msgTree_commit {marks todo : List (RetDataInfo α)} {rest : List α}
    (hi : s.threads[i]? = some (.push marks todo rest)) :
    (msgTree span).step s (.commit i) =
      some { s with retList := s.retList ++ todo, threads := s.threads.set i (.shift rest) } := by
  dsimp only [msgTree]
  rw [hi]

theorem msgTree_finish (hi : s.threads[i]? = some (.shift [])) :
    (msgTree span).step s (.finish i) =
      some { s with
        tree := { s.tree with running := s.tree.running - 1, thrCount := s.tree.thrCount - 1 }
        threads := s.threads.set i .done } := by
  dsimp only [msgTree]
  rw [hi]

theorem treeTurn_settles_of_counted {name : α} {a : Attempt α} (hnd : (name :: hl).Nodup)
    (ha : a.Counted hl) : (treeTurn name hl a).Settles name hl := by
  match a, ha with
  | .noAddr, _ => exact settles_failed _
  | .contact .noConn, _ => exact treeTurn_failed rfl
  | .contact (.notSent err), _ => exact treeTurn_failed rfl
  | .contact (.sent r), ha => exact treeTurn_settles hnd ha.2 ha.1

theorem treeTurn_eq_push (name : α) (a : Attempt α) : ∃ todo rest, treeTurn name hl a = .push [] todo rest := by
  cases a with
  | noAddr => exact ⟨_, _, rfl⟩
  | contact c =>
    rw [treeTurn]
    dsimp only
    split_ifs <;> exact ⟨_, _, rfl⟩

theorem Head.Kept.step (hcap : hl.length ≤ Blocks.start (MsgTree.share span) span.length) (hnd : hl.Nodup)
    (h : s.Kept span hl) (hm : m.Counted s) (hstep : (msgTree span).step s m = some t) : t.Kept span hl := by
  obtain ⟨rfl, tree, htree, hcreate, hother⟩ | ⟨i, a, name, hl', rfl, hi, rfl⟩ |
    ⟨i, marks, todo, rest, rfl, hi, rfl⟩ | ⟨i, rfl, hi, rfl⟩ := msgTree_step hstep
  · obtain ⟨level, hs⟩ := h.spread
    obtain ⟨hnew, hsame⟩ := callerStep_launched htree
    by_cases hpc : s.tree.pc = .create
    · obtain ⟨hlaunched, hrunning⟩ := hnew hpc
      rw [hcreate hpc]
      refine ⟨hs.caller hcap htree, ?_, ?_, ?_⟩
      · dsimp only
        rw [hrunning, h.running, map_append, sum_append]
        rfl
      · dsimp only
        rw [hlaunched, flatten_append, flatten_singleton, hosts_append, ← h.books, map_append,
          sum_append, ← add_assoc]
        simp [Phase.owed]
      · have hsub : s.tree.treeHl.Sublist hl := by
          rw [← hs.covers]
          exact (sublist_append_right _ _).trans (sublist_append_left _ _)
        exact forall_mem_append.2 ⟨h.phases, forall_mem_singleton.2 (hnd.sublist hsub)⟩
    · obtain ⟨hlaunched, hrunning⟩ := hsame hpc
      rw [hother hpc]
      exact ⟨hs.caller hcap htree, hrunning.trans h.running, by rw [hlaunched]; exact h.books, h.phases⟩
  · have hsettles := treeTurn_settles_of_counted (h.phases _ (mem_of_getElem? hi)) (hm name hl' hi)
    obtain ⟨todo, rest, heq⟩ := treeTurn_eq_push name a
    obtain ⟨_, _, rest', heq', -, hsub, -⟩ := hsettles.shape
    have hok : (treeTurn name hl' a).TreeOk := by
      obtain ⟨-, -, rfl⟩ : _ ∧ _ ∧ rest = rest' := by simpa using heq.symm.trans heq'
      rw [heq]
      exact ⟨rfl, (nodup_cons.1 (h.phases _ (mem_of_getElem? hi))).2.sublist hsub⟩
    have hkept := h.thread s.tree (treeTurn name hl' a) [] hi (by rw [names_nil, zero_add, hsettles.owed]; rfl) hok
      h.spread (by rw [heq]; rfl) rfl
    rwa [append_nil] at hkept
  · have hphase := h.phases _ (mem_of_getElem? hi)
    obtain ⟨rfl, hrest⟩ := hphase
    exact h.thread s.tree (.shift rest) todo hi (by simp [Phase.owed]) hrest h.spread rfl rfl
  · obtain ⟨level, hs⟩ := h.spread
    have hpos : 0 < s.tree.running := by
      rw [h.running]
      exact Nat.lt_of_lt_of_le Nat.zero_lt_one
        (single_le_sum (by simp) _ (mem_map_of_mem (mem_of_getElem? hi)))
    have hkept := h.thread _ .done [] hi (by simp [Phase.owed]) trivial ⟨level, hs.finish hpos⟩
      (by show s.tree.running - 1 + 1 = s.tree.running + 0; omega) rfl
    rwa [append_nil] at hkept

/-! ## Progress -/

/-- What a thread of the tree has to do still. -/
def Phase.treeRank : Phase α → Nat
  | .shift hl => 2 * hl.length + 1
  | .push _ _ rest => 2 * rest.length + 2
  | .done => 0

theorem Head.exists_move (span : List Nat) (hdone : ¬∀ p ∈ s.threads, p = .done) :
    ∃ m t, m.Counted s ∧ (msgTree span).step s m = some t ∧ t.tree.pc = s.tree.pc ∧
      (t.threads.map Phase.treeRank).sum < (s.threads.map Phase.treeRank).sum := by
  push Not at hdone
  obtain ⟨p, hp, hne⟩ := hdone
  obtain ⟨i, hi⟩ := mem_iff_getElem?.1 hp
  cases p with
  | shift hl' =>
    cases hl' with
    | nil =>
      refine ⟨.finish i, _, trivial, msgTree_finish hi, rfl, ?_⟩
      have hsum := sum_map_set Phase.treeRank (b := .done) hi
      simp only [Phase.treeRank, length_nil] at hsum ⊢
      omega
    | cons name rest =>
      refine ⟨.attempt i .noAddr, _, fun _ _ _ => trivial, msgTree_attempt _ hi, rfl, ?_⟩
      have hsum := sum_map_set Phase.treeRank (b := treeTurn name rest .noAddr) hi
      simp only [Phase.treeRank, treeTurn, length_cons] at hsum ⊢
      omega
  | push marks todo rest =>
    refine ⟨.commit i, _, trivial, msgTree_commit hi, rfl, ?_⟩
    have hsum := sum_map_set Phase.treeRank (b := .shift rest) hi
    simp only [Phase.treeRank] at hsum ⊢
    omega
  | done => exact absurd rfl hne

theorem Head.Kept.exists_caller (h : s.Kept span hl) (hdone : s.tree.pc ≠ .done)
    (hcap : hl.length ≤ Blocks.start (MsgTree.share span) span.length) :
    ∃ t, (msgTree span).step s .caller = some t ∧ t.tree.rank < s.tree.rank := by
  obtain ⟨level, hs⟩ := h.spread
  obtain ⟨tree, htree, hrank⟩ := MsgTree.callerStep_rank hs.ne_outside hdone
  obtain ⟨level', hs'⟩ := hs.caller hcap htree
  dsimp only [msgTree]
  rw [htree]
  split_ifs with hpc
  · exact ⟨_, rfl, hrank hs'.ne_outside⟩
  · exact ⟨_, rfl, hrank hs'.ne_outside⟩

/-- **The caller can return**, from wherever it is. -/
theorem Head.Kept.exists_returned (hcap : hl.length ≤ Blocks.start (MsgTree.share span) span.length)
    (hnd : hl.Nodup) (h : s.Kept span hl) : ∃ t, (msgTree span).Reach HeadMove.Counted s t ∧ t.Returned := by
  -- first the caller hands out the hosts, then the threads end
  obtain ⟨t, ht, hkept, hpc⟩ := Machine.reach_of_rank (P := HeadMove.Counted)
    (by
      intro s hs hpc
      obtain ⟨t, hstep, hlt⟩ := hs.exists_caller hpc hcap
      have hm : HeadMove.caller.Counted s := trivial
      exact ⟨.caller, t, hm, hstep, hs.step hcap hnd hm hstep, hlt⟩) h
  obtain ⟨u, hu, ⟨hkept', hpc'⟩, hdone⟩ := Machine.reach_of_rank (P := HeadMove.Counted)
    (I := fun s => s.Kept span hl ∧ s.tree.pc = .done) (D := fun s => ∀ p ∈ s.threads, p = .done)
    (by
      rintro s ⟨hs, hpc⟩ hdone
      obtain ⟨m, t, hm, hstep, hsame, hlt⟩ := Head.exists_move span hdone
      exact ⟨m, t, hm, hstep, ⟨hs.step hcap hnd hm hstep, hsame.trans hpc⟩, hlt⟩) ⟨hkept, hpc⟩
  refine ⟨u, ht.trans hu, hpc', ?_⟩
  obtain ⟨level, hs⟩ := hkept'.spread
  have hzero : (u.threads.map Phase.alive).sum = 0 := by
    refine sum_eq_zero (List.forall_mem_map.2 fun p hp => ?_)
    rw [hdone p hp]
    rfl
  rw [hs.count, hkept'.running, hzero, hpc']
  rfl

end

/-! ## Every host is answered for once -/

section
variable [LinearOrder α]

/-- **Every forwarded host is answered for once.**
    (1) A slurmd that forwards a message: in every run one record for each host and a waiter that is released
    with the last of them, if and only if the count in the header is the number of distinct hosts.
    (2) `start_msg_tree`: in every run in which the hosts that reply were asked to forward to fewer than 65536
    others, one record for each host when it returns; and it can return from every state.
    (3) A turn of its threads may lose a host if, and only if, it asks a host to forward to 65536 or more. -/
theorem forwarded_hosts_answered_once {w : Nat} (hw : 0 < w) (hw' : w < 2 ^ 16) :
    (∀ type (hl : List α), AnsweredOnce w type hl ↔ hl.length % 2 ^ 16 = hl.dedup.length) ∧
      (∀ (hl : List α) span, setSpan (hostlistUniq hl).length w = some span →
        ∀ s, (msgTree span).Reach HeadMove.Counted (.initial (hostlistUniq hl)) s →
          (s.Returned → (s.retList.map RetDataInfo.nodeName).Perm (hl.dedup.map some)) ∧
            ∃ t, (msgTree span).Reach HeadMove.Counted s t ∧ t.Returned) ∧
      ∀ (name : α) hl, (name :: hl).Nodup →
        ((∀ a : Attempt α, a.Fits hl → (treeTurn name hl a).Settles name hl) ↔ hl.length < 2 ^ 16) := by
  refine ⟨answeredOnce_iff hw hw', fun hl span hspan s hs => ?_, fun name hl => treeTurn_settles_iff⟩
  have hperm := hostlistUniq_perm hl
  have hnd : (hostlistUniq hl).Nodup := hperm.nodup_iff.2 (nodup_dedup hl)
  obtain ⟨span', hspan', hlen, -, hge⟩ := MsgTree.setSpan_spec hw (hostlistUniq hl).length
  obtain rfl : span' = span := some.inj (hspan'.symm.trans hspan)
  have hcap : (hostlistUniq hl).length ≤ Blocks.start (MsgTree.share span') span'.length :=
    hlen ▸ MsgTree.le_capacity hge hlen
  have hkept : s.Kept span' (hostlistUniq hl) :=
    hs.invariant (Head.kept_initial span' _) fun _ _ _ hs hm hstep => hs.step hcap hnd hm hstep
  exact ⟨fun hret => (names_eq_hosts_iff.1 (hkept.names_of_returned hret)).trans (hperm.map some),
    hkept.exists_returned hcap hnd⟩

end

/-- Three hosts; to `start_msg_tree` one of them is named twice. -/
theorem forwarded_hosts_answered_once_three :
    AnsweredOnce 50 (.other 0) [1, 2, 3] ∧
      ∀ s, (msgTree (replicate 50 0)).Reach HeadMove.Counted (.initial (hostlistUniq [3, 1, 3, 2])) s →
        s.Returned → (s.retList.map RetDataInfo.nodeName).Perm [some 1, some 3, some 2] := by
  obtain ⟨hforward, htree, -⟩ := forwarded_hosts_answered_once (α := Nat) (w := 50) (by decide) (by decide)
  refine ⟨(hforward (.other 0) [1, 2, 3]).2 (by decide), fun s hs hret => ?_⟩
  refine (htree [3, 1, 3, 2] _ ?_ s hs).1 hret
  rw [(hostlistUniq_perm _).length_eq]
  rfl

/-- 65536 hosts: the header says that there is nothing to forward. -/
theorem large_message_not_forwarded :
    forwardCnt (range 65536) = 0 ∧ startForward 50 (range 65536) = some [] ∧
      ¬AnsweredOnce 50 (.other 0) (range 65536) := by
  have hcnt : forwardCnt (range 65536) = 0 := by
    rw [forwardCnt, length_range]
    rfl
  refine ⟨hcnt, by rw [startForward, if_pos hcnt], fun h => ?_⟩
  have hlen := (answeredOnce_iff (by decide) (by decide) _ _).1 h
  rw [nodup_range.dedup, length_range] at hlen
  cases hlen

end Slurmpp.Forward
