/-
  The threads that forward a message, and the one that waits for them (`_forward_thread` and `forward_wait` of
  `src/common/forward.c`, with the count that `slurm_receive_msg_and_forward` sets).

  1. **The law** — in the machine `forwarding`, records in the list and hosts owed by the threads are the hosts of
     the message (`Kept.books`), whatever the attempts come to and in whichever order the threads run.
  2. **The waiter** goes by the number of records.  The list is complete only when all threads have ended
     (`Kept.all_done`), and the waiter does not sleep on (`Kept.exists_released`).
  3. The number it waits for is the 16-bit count of the header, taken BEFORE `hostlist_uniq`: all this holds
     exactly when that count is the number of distinct hosts (`answeredOnce_iff`).
-/
import Slurmpp.Lib.Threads
import Slurmpp.Common.MsgTree
import Slurmpp.Common.Forward

namespace Slurmpp.Forward

open List Option

variable {α : Type}

/-! ## The machine -/

/-- The thread in `forward_wait`: about to look at the list, in `pthread_cond_wait`, or behind it. -/
inductive Waiter
  | awake
  | asleep
  | released
deriving DecidableEq

/-- `pthread_cond_signal` -/
def Waiter.signalled : Waiter → Waiter
  | .asleep => .awake
  | w => w

structure Forwarding (α : Type) where
  retList : List (RetDataInfo α)
  threads : List (Phase α)
  waiter : Waiter

inductive Move (α : Type)
  | attempt (i : Nat) (a : Attempt α)
  | mark (i : Nat)
  | commit (i : Nat)
  | check
  | wake

/-- The section with the lock: the records are popped off one list and pushed on the other; with no host
    left the thread ends and signals. -/
def Forwarding.commit (s : Forwarding α) (i : Nat) (todo : List (RetDataInfo α)) (rest : List α) : Forwarding α :=
  if rest = [] then ⟨todo.reverse ++ s.retList, s.threads.set i .done, s.waiter.signalled⟩
  else ⟨todo.reverse ++ s.retList, s.threads.set i (.shift rest), s.waiter⟩

def forwarding [DecidableEq α] (type : MsgType) (fwdCnt : Nat) : Machine (Forwarding α) (Move α) where
  step s m :=
    match m with
    | .attempt i a =>
      match s.threads[i]? with
      | some (.shift (name :: hl)) =>
        some { s with threads := s.threads.set i (forwardTurn type name hl a) }
      | _ => none
    | .mark i =>
      match s.threads[i]? with
      | some (.push (r :: marks) todo rest) =>
        some { s with retList := r :: s.retList, threads := s.threads.set i (.push marks todo rest) }
      | _ => none
    | .commit i =>
      match s.threads[i]? with
      | some (.push [] todo rest) => some (s.commit i todo rest)
      | _ => none
    | .check =>
      if s.waiter = .awake then
        some { s with waiter := if s.retList.length < fwdCnt then .asleep else .released }
      else none
    | .wake =>
      -- pthread_cond_wait may return without a signal
      if s.waiter = .asleep then some { s with waiter := .awake } else none

def Forwarding.initial (lists : List (List α)) : Forwarding α := ⟨[], lists.map .shift, .awake⟩

/-- Every reply is missing, partial or complete. -/
def Move.Fits (s : Forwarding α) : Move α → Prop
  | .attempt i a => ∀ name hl, s.threads[i]? = some (.shift (name :: hl)) → a.Fits hl
  | _ => True

section
variable {type : MsgType} {fwdCnt i : Nat} {s t : Forwarding α} {m : Move α} {hl : List α}

/-! ## The law -/

def Phase.Ok : Phase α → Prop
  | .shift hl => hl ≠ [] ∧ hl.Nodup ∧ hl.length ≤ 2 ^ 16
  | .push _ todo rest => todo ≠ [] ∧ rest.Nodup ∧ rest.length ≤ 2 ^ 16
  | .done => True

theorem Phase.Ok.eq_done {p : Phase α} (h : p.Ok) (howed : p.owed = 0) : p = .done := by
  cases p with
  | shift hl =>
    have hcard := congrArg Multiset.card howed
    rw [owed, card_hosts, Multiset.card_zero] at hcard
    exact absurd (eq_nil_of_length_eq_zero hcard) h.1
  | push marks todo rest =>
    have hcard := congrArg Multiset.card howed
    rw [owed, Multiset.card_add, Multiset.card_add, card_names, card_names, Multiset.card_zero] at hcard
    exact absurd (eq_nil_of_length_eq_zero (by omega)) h.1
  | done => rfl

theorem owed_set {threads : List (Phase α)} {p p' : Phase α} {m : Multiset (Option α)}
    (hi : threads[i]? = some p) (h : p.owed = m + p'.owed) :
    m + ((threads.set i p').map Phase.owed).sum = (threads.map Phase.owed).sum := by
  have hsum := sum_map_set Phase.owed (b := p') hi
  rw [h, ← add_assoc] at hsum
  rw [add_comm]
  exact add_right_cancel hsum

/-- **The invariant.** -/
structure Forwarding.Kept (hl : List α) (fwdCnt : Nat) (s : Forwarding α) : Prop where
  books : names s.retList + (s.threads.map Phase.owed).sum = hosts hl
  phases : ∀ p ∈ s.threads, p.Ok
  asleep : s.waiter = .asleep → s.retList.length < fwdCnt ∨ ∃ p ∈ s.threads, p ≠ .done
  released : s.waiter = .released → fwdCnt ≤ s.retList.length

theorem Forwarding.Kept.thread {p p' : Phase α} {l : List (RetDataInfo α)} {w : Waiter}
    (h : s.Kept hl fwdCnt) (hi : s.threads[i]? = some p) (howed : p.owed = names l + p'.owed) (hok : p'.Ok)
    (hasleep : w = .asleep → p' ≠ .done) (hreleased : w = .released → s.waiter = .released) :
    Forwarding.Kept hl fwdCnt ⟨l ++ s.retList, s.threads.set i p', w⟩ where
  books := by
    rw [names_append, add_assoc, add_left_comm, owed_set hi howed, h.books]
  phases q hq := by
    rcases mem_or_eq_of_mem_set hq with hq | rfl
    · exact h.phases q hq
    · exact hok
  asleep hw := by
    have hlt : i < s.threads.length := (List.getElem?_eq_some_iff.1 hi).1
    exact .inr ⟨p', List.mem_set hlt p', hasleep hw⟩
  released hw := by
    rw [length_append]
    have := h.released (hreleased hw)
    omega

theorem Forwarding.Kept.names_of_done (h : s.Kept hl fwdCnt) (hdone : ∀ p ∈ s.threads, p = .done) :
    names s.retList = hosts hl := by
  have hzero : (s.threads.map Phase.owed).sum = 0 := by
    refine sum_eq_zero (List.forall_mem_map.2 fun p hp => ?_)
    rw [hdone p hp]
    rfl
  rw [← h.books, hzero, add_zero]

theorem Forwarding.Kept.card_owed (h : s.Kept hl fwdCnt) :
    s.retList.length + (s.threads.map Phase.owed).sum.card = hl.length := by
  rw [← card_hosts hl, ← h.books, Multiset.card_add, card_names]

/-- **A complete list means that all threads have ended.** -/
theorem Forwarding.Kept.all_done (h : s.Kept hl fwdCnt) (hfull : hl.length ≤ s.retList.length) :
    ∀ p ∈ s.threads, p = .done := by
  have hcard := h.card_owed
  have hzero : (s.threads.map Phase.owed).sum = 0 := Multiset.card_eq_zero.1 (by omega)
  exact fun p hp => (h.phases p hp).eq_done (sum_eq_zero_iff.1 hzero _ (mem_map_of_mem hp))

theorem Waiter.signalled_ne_asleep (w : Waiter) : w.signalled ≠ .asleep := by
  cases w <;> simp [signalled]

theorem Waiter.signalled_eq_released {w : Waiter} (h : w.signalled = .released) : w = .released := by
  cases w <;> simp_all [signalled]

/-! ## Steps -/

variable [DecidableEq α]

theorem forwarding_step (h : (forwarding type fwdCnt).step s m = some t) :
    (∃ i a name hl, m = .attempt i a ∧ s.threads[i]? = some (.shift (name :: hl)) ∧
        t = { s with threads := s.threads.set i (forwardTurn type name hl a) }) ∨
      (∃ i r marks todo rest, m = .mark i ∧ s.threads[i]? = some (.push (r :: marks) todo rest) ∧
        t = { s with retList := r :: s.retList, threads := s.threads.set i (.push marks todo rest) }) ∨
      (∃ i todo rest, m = .commit i ∧ s.threads[i]? = some (.push [] todo rest) ∧ t = s.commit i todo rest) ∨
      (m = .check ∧ s.waiter = .awake ∧
        t = { s with waiter := if s.retList.length < fwdCnt then .asleep else .released }) ∨
      (m = .wake ∧ s.waiter = .asleep ∧ t = { s with waiter := .awake }) := by
  cases m with
  | attempt i a =>
    dsimp only [forwarding] at h
    split at h
    · rename_i name hl hi
      exact .inl ⟨i, a, name, hl, rfl, hi, (some.inj h).symm⟩
    · cases h
  | mark i =>
    dsimp only [forwarding] at h
    split at h
    · rename_i r marks todo rest hi
      exact .inr (.inl ⟨i, r, marks, todo, rest, rfl, hi, (some.inj h).symm⟩)
    · cases h
  | commit i =>
    dsimp only [forwarding] at h
    split at h
    · rename_i todo rest hi
      exact .inr (.inr (.inl ⟨i, todo, rest, rfl, hi, (some.inj h).symm⟩))
    · cases h
  | check =>
    obtain ⟨hw, h⟩ := ite_none_right_eq_some.1 h
    exact .inr (.inr (.inr (.inl ⟨rfl, hw, (some.inj h).symm⟩)))
  | wake =>
    obtain ⟨hw, h⟩ := ite_none_right_eq_some.1 h
    exact .inr (.inr (.inr (.inr ⟨rfl, hw, (some.inj h).symm⟩)))

theorem forwardTurn_ok {name : α} {hl : List α} {a : Attempt α} (h : (Phase.shift (name :: hl)).Ok)
    (hfit : a.Fits hl) : (forwardTurn type name hl a).Settles name hl ∧ (forwardTurn type name hl a).Ok := by
  obtain ⟨-, hnd, hlen⟩ := h
  rw [length_cons] at hlen
  have hsettles : (forwardTurn type name hl a).Settles name hl := forwardTurn_settles hnd (by omega) hfit
  obtain ⟨marks, todo, rest, heq, hne, hsub, -⟩ := hsettles.shape
  refine ⟨hsettles, ?_⟩
  rw [heq]
  exact ⟨hne, (nodup_cons.1 hnd).2.sublist hsub, by have := hsub.length_le; omega⟩

theorem Forwarding.Kept.step (h : s.Kept hl fwdCnt) (hfit : m.Fits s)
    (hstep : (forwarding type fwdCnt).step s m = some t) : t.Kept hl fwdCnt := by
  obtain ⟨i, a, name, hl', rfl, hi, rfl⟩ | ⟨i, r, marks, todo, rest, rfl, hi, rfl⟩ | ⟨i, todo, rest, rfl, hi, rfl⟩ |
    ⟨rfl, hw, rfl⟩ | ⟨rfl, hw, rfl⟩ := forwarding_step hstep
  · obtain ⟨hsettles, hok⟩ := forwardTurn_ok (h.phases _ (mem_of_getElem? hi)) (hfit name hl' hi)
    obtain ⟨marks, todo, rest, heq, -, -⟩ := hsettles.shape
    refine h.thread (l := []) hi ?_ hok (fun _ => by simp [heq]) id
    rw [names_nil, zero_add, hsettles.owed]
    rfl
  · refine h.thread (l := [r]) hi ?_ ?_ (fun _ => by simp) id
    · simp [Phase.owed]
    · exact (h.phases _ (mem_of_getElem? hi) : (Phase.push (r :: marks) todo rest).Ok)
  · have hphase := h.phases _ (mem_of_getElem? hi)
    rw [commit]
    split_ifs with hrest
    · refine h.thread hi ?_ trivial (fun hw => absurd hw (Waiter.signalled_ne_asleep _))
        Waiter.signalled_eq_released
      simp [Phase.owed, hrest]
    · refine h.thread hi ?_ ⟨hrest, hphase.2⟩ (fun _ => by simp) id
      simp [Phase.owed]
  · refine ⟨h.books, h.phases, fun hw' => ?_, fun hw' => ?_⟩
    · dsimp only at hw' ⊢
      split_ifs at hw' with hlt
      exact .inl hlt
    · dsimp only at hw' ⊢
      split_ifs at hw' with hlt
      exact Nat.le_of_not_lt hlt
  · exact ⟨h.books, h.phases, fun hw' => absurd hw' (by simp), fun hw' => absurd hw' (by simp)⟩

/-! ## Progress -/

/-- What a thread has to do still. -/
def Phase.rank : Phase α → Nat
  | .shift hl => 3 * hl.length
  | .push marks _ rest => 3 * rest.length + marks.length + 1
  | .done => 0

theorem Forwarding.Kept.exists_move (type : MsgType) (h : s.Kept hl fwdCnt) (hdone : ¬∀ p ∈ s.threads, p = .done) :
    ∃ m t, m.Fits s ∧ (forwarding type fwdCnt).step s m = some t ∧
      (t.threads.map Phase.rank).sum < (s.threads.map Phase.rank).sum := by
  push Not at hdone
  obtain ⟨p, hp, hne⟩ := hdone
  obtain ⟨i, hi⟩ := mem_iff_getElem?.1 hp
  have hok := h.phases p hp
  cases p with
  | shift hl' =>
    cases hl' with
    | nil => exact absurd rfl hok.1
    | cons name rest =>
      refine ⟨.attempt i .noAddr, _, fun _ _ _ => trivial, by dsimp only [forwarding]; rw [hi], ?_⟩
      have hsum := sum_map_set Phase.rank (b := forwardTurn type name rest .noAddr) hi
      simp only [Phase.rank, forwardTurn, length_cons, length_nil] at hsum ⊢
      omega
  | push marks todo rest =>
    cases marks with
    | cons r marks =>
      refine ⟨.mark i, _, trivial, by dsimp only [forwarding]; rw [hi], ?_⟩
      have hsum := sum_map_set Phase.rank (b := .push marks todo rest) hi
      simp only [Phase.rank, length_cons] at hsum ⊢
      omega
    | nil =>
      refine ⟨.commit i, _, trivial, by dsimp only [forwarding]; rw [hi], ?_⟩
      rw [commit]
      split_ifs with hrest
      · have hsum := sum_map_set Phase.rank (b := .done) hi
        simp only [Phase.rank, length_nil] at hsum ⊢
        omega
      · have hsum := sum_map_set Phase.rank (b := .shift rest) hi
        simp only [Phase.rank, length_nil] at hsum ⊢
        omega
  | done => exact absurd rfl hne

theorem Forwarding.Kept.exists_done (h : s.Kept hl fwdCnt) :
    ∃ t, (forwarding type fwdCnt).Reach Move.Fits s t ∧ t.Kept hl fwdCnt ∧ ∀ p ∈ t.threads, p = .done := by
  refine Machine.reach_of_rank
    (f := fun s => (s.threads.map Phase.rank).sum) (fun s hs hdone => ?_) h
  obtain ⟨m, t, hfit, hstep, hlt⟩ := hs.exists_move type hdone
  exact ⟨m, t, hfit, hstep, hs.step hfit hstep, hlt⟩

/-- **The waiter can be released**, when it waits for as many records as there are hosts. -/
theorem Forwarding.Kept.exists_released (h : s.Kept hl hl.length) :
    ∃ t, (forwarding type hl.length).Reach Move.Fits s t ∧ t.waiter = .released := by
  obtain ⟨t, hreach, ht, hdone⟩ := h.exists_done
  have hlen : t.retList.length = hl.length := by
    rw [← card_names, ht.names_of_done hdone, card_hosts]
  cases hw : t.waiter with
  | awake =>
    refine ⟨{ t with waiter := .released }, hreach.step (a := .check) trivial ?_, rfl⟩
    dsimp only [forwarding]
    rw [if_pos hw, if_neg (by omega)]
  | asleep =>
    -- the thread that ended last has signalled
    rcases ht.asleep hw with hlt | ⟨p, hp, hne⟩
    · omega
    · exact absurd (hdone p hp) hne
  | released => exact ⟨t, hreach, hw⟩

/-! ## A count that is too low -/

/-- Every thread is between two turns or has ended, and the waiter is about to look. -/
def Forwarding.Quiet (s : Forwarding α) : Prop :=
  (∀ p ∈ s.threads, p = .done ∨ ∃ hl, p = .shift hl) ∧ s.waiter = .awake

theorem Forwarding.Kept.exists_next (type : MsgType) (h : s.Kept hl fwdCnt) (hquiet : s.Quiet)
    (hlt : s.retList.length < hl.length) :
    ∃ t, (forwarding type fwdCnt).Reach Move.Fits s t ∧ t.Quiet ∧ t.retList.length = s.retList.length + 1 := by
  obtain ⟨hphases, hw⟩ := hquiet
  obtain ⟨p, hp, hne⟩ : ∃ p ∈ s.threads, p ≠ .done := by
    by_contra hall
    push Not at hall
    have hcard := congrArg Multiset.card (h.names_of_done hall)
    rw [card_names, card_hosts] at hcard
    omega
  obtain ⟨hl', rfl⟩ := (hphases p hp).resolve_left hne
  obtain ⟨name, rest, rfl⟩ := exists_cons_of_ne_nil (h.phases _ hp).1
  obtain ⟨i, hi⟩ := mem_iff_getElem?.1 hp
  have hlen : i < s.threads.length := (List.getElem?_eq_some_iff.1 hi).1
  let s1 : Forwarding α := { s with threads := s.threads.set i (forwardTurn type name rest .noAddr) }
  have hfirst : (forwarding type fwdCnt).step s (.attempt i .noAddr) = some s1 := by
    dsimp only [forwarding]
    rw [hi]
  have hcommit : s1.commit i [markAsFailedForward name .unknownForwardAddr] rest =
      ⟨markAsFailedForward name .unknownForwardAddr :: s.retList,
        s.threads.set i (if rest = [] then .done else .shift rest), .awake⟩ := by
    rw [commit]
    dsimp only [s1]
    rw [hw, set_set, set_set]
    split_ifs <;> rfl
  have hsecond : (forwarding type fwdCnt).step s1 (.commit i) =
      some (s1.commit i [markAsFailedForward name .unknownForwardAddr] rest) := by
    dsimp only [forwarding, s1]
    rw [getElem?_set_self hlen]
    rfl
  have hattempt : (forwarding type fwdCnt).Reach Move.Fits s s1 :=
    Machine.Reach.start.step (a := .attempt i .noAddr) (fun _ _ _ => trivial) hfirst
  have hfits : (Move.commit i).Fits s1 := trivial
  have hreach := hattempt.step hfits hsecond
  rw [hcommit] at hreach
  refine ⟨_, hreach, ⟨fun q hq => ?_, rfl⟩, rfl⟩
  rcases mem_or_eq_of_mem_set hq with hq | rfl
  · exact hphases q hq
  · split_ifs
    · exact .inl rfl
    · exact .inr ⟨rest, rfl⟩

theorem Forwarding.Kept.exists_early (h : s.Kept hl fwdCnt) (hquiet : s.Quiet)
    (hcnt : s.retList.length ≤ fwdCnt) (hlow : fwdCnt < hl.length) :
    ∃ t, (forwarding type fwdCnt).Reach Move.Fits s t ∧ t.waiter = .released ∧ t.retList.length = fwdCnt := by
  obtain ⟨k, hk⟩ := Nat.exists_eq_add_of_le hcnt
  induction k generalizing s with
  | zero =>
    refine ⟨{ s with waiter := .released }, Machine.Reach.start.step (a := .check) trivial ?_, rfl, hk.symm⟩
    dsimp only [forwarding]
    rw [if_pos hquiet.2, if_neg (by omega)]
  | succ k ih =>
    obtain ⟨t, hreach, ht, hlen⟩ := h.exists_next type hquiet (by omega)
    have hkept : t.Kept hl fwdCnt := hreach.invariant h fun _ _ _ hs hfit hstep => hs.step hfit hstep
    obtain ⟨u, hu, hw, hcount⟩ := ih hkept ht (by omega) (by omega)
    exact ⟨u, hreach.trans hu, hw, hcount⟩

/-! ## The message -/

end

/-- `hostlist_uniq`: the hosts in order, each once. -/
def hostlistUniq [LinearOrder α] (hl : List α) : List α := (hl.mergeSort (· ≤ ·)).dedup

theorem hostlistUniq_perm [LinearOrder α] (hl : List α) : (hostlistUniq hl).Perm hl.dedup :=
  (mergeSort_perm hl _).dedup

/-- The lists of the threads that `slurm_receive_msg_and_forward` starts for a header with these hosts; `none`
    when `forward_msg` leaves its arrays.  With a count of zero nothing is forwarded. -/
def startForward [LinearOrder α] (w : Nat) (hl : List α) : Option (List (List α)) :=
  if forwardCnt hl = 0 then some [] else MsgTree.forwardMsg w (forwardCnt hl) (hostlistUniq hl)

/-- **What forwarding is for**: in every run, whatever the replies are, there is one record for each host
    when the threads have ended, and likewise when the waiter is released; and the waiter can be. -/
def AnsweredOnce [LinearOrder α] (w : Nat) (type : MsgType) (hl : List α) : Prop :=
  ∃ lists, startForward w hl = some lists ∧
    ∀ s, (forwarding type (forwardCnt hl).toNat).Reach Move.Fits (.initial lists) s →
      ((∀ p ∈ s.threads, p = .done) → (s.retList.map RetDataInfo.nodeName).Perm (hl.dedup.map some)) ∧
        (s.waiter = .released → (s.retList.map RetDataInfo.nodeName).Perm (hl.dedup.map some)) ∧
        ∃ t, (forwarding type (forwardCnt hl).toNat).Reach Move.Fits s t ∧ t.waiter = .released

section
variable {lists : List (List α)} {hl : List α} {fwdCnt : Nat}

theorem sum_owed_shift : ((lists.map Phase.shift).map Phase.owed).sum = hosts lists.flatten := by
  induction lists with
  | nil => rfl
  | cons l lists ih => rw [flatten_cons, hosts_append, ← ih]; rfl

theorem kept_initial (hpieces : ∀ l ∈ lists, l ≠ [] ∧ l.length ≤ 2 ^ 16) (hnd : lists.flatten.Nodup) :
    (Forwarding.initial lists).Kept lists.flatten fwdCnt where
  books := by
    rw [Forwarding.initial, names_nil, zero_add, sum_owed_shift]
  phases := List.forall_mem_map.2 fun l hl =>
    ⟨(hpieces l hl).1, hnd.sublist (sublist_flatten_of_mem hl), (hpieces l hl).2⟩
  asleep h := absurd h (by simp [Forwarding.initial])
  released h := absurd h (by simp [Forwarding.initial])

theorem quiet_initial : (Forwarding.initial lists).Quiet := by
  exact ⟨List.forall_mem_map.2 fun l _ => .inr ⟨l, rfl⟩, rfl⟩

end

section
variable [LinearOrder α] {lists : List (List α)} {w : Nat} {type : MsgType} {hl : List α}

theorem startForward_pieces (hw : 0 < w) (hcnt : forwardCnt hl ≠ 0) (h : startForward w hl = some lists) :
    lists.flatten.Perm hl.dedup ∧ (Forwarding.initial lists).Kept lists.flatten (forwardCnt hl).toNat := by
  rw [startForward, if_neg hcnt] at h
  obtain ⟨hflat, hpieces⟩ := MsgTree.forwardMsg_pieces hw h
  have hperm : lists.flatten.Perm hl.dedup := by
    rw [hflat]
    exact hostlistUniq_perm hl
  exact ⟨hperm, kept_initial hpieces (hperm.nodup_iff.2 (nodup_dedup hl))⟩

theorem exists_startForward (hw : 0 < w) (hw' : w < 2 ^ 16) (hcnt : (forwardCnt hl).toNat = hl.dedup.length) :
    ∃ lists, startForward w hl = some lists ∧ lists.flatten.Perm hl.dedup ∧
      (Forwarding.initial lists).Kept lists.flatten (forwardCnt hl).toNat := by
  by_cases hzero : forwardCnt hl = 0
  · have hnil : hl.dedup = [] := eq_nil_of_length_eq_zero (by rw [← hcnt, hzero]; rfl)
    refine ⟨[], by rw [startForward, if_pos hzero], by rw [hnil]; rfl, kept_initial (by simp) (by simp)⟩
  · have hlen : (hostlistUniq hl).length = (forwardCnt hl).toNat := by
      rw [hcnt, (hostlistUniq_perm hl).length_eq]
    have hof : BitVec.ofNat 16 (hostlistUniq hl).length = forwardCnt hl := by
      rw [hlen, BitVec.ofNat_toNat, BitVec.setWidth_eq]
    obtain ⟨lists, hlists, -⟩ := (MsgTree.forwardMsg_covers_iff hw hw' (hostlistUniq hl)).2 (by
      rw [hlen]
      exact (forwardCnt hl).isLt)
    rw [hof] at hlists
    have hstart : startForward w hl = some lists := by rw [startForward, if_neg hzero, hlists]
    exact ⟨lists, hstart, startForward_pieces hw hzero hstart⟩

/-- **A message is answered for, and its waiter released, exactly when the count of its header is the number
    of its distinct hosts.** -/
theorem answeredOnce_iff (hw : 0 < w) (hw' : w < 2 ^ 16) (type : MsgType) (hl : List α) :
    AnsweredOnce w type hl ↔ hl.length % 2 ^ 16 = hl.dedup.length := by
  have hmod : (forwardCnt hl).toNat = hl.length % 2 ^ 16 := BitVec.toNat_ofNat _ _
  rw [← hmod]
  constructor
  · rintro ⟨lists, hstart, hall⟩
    obtain ⟨hdone, -, t, ht, hreleased⟩ := hall _ .start
    by_cases hzero : forwardCnt hl = 0
    · obtain rfl : lists = [] := by
        rw [startForward, if_pos hzero] at hstart
        exact (some.inj hstart).symm
      have hperm := hdone (by simp [Forwarding.initial])
      rw [hzero, ← length_map, ← hperm.length_eq]
      rfl
    · obtain ⟨hflat, hkept⟩ := startForward_pieces hw hzero hstart
      rw [← hflat.length_eq]
      rcases Nat.lt_trichotomy (forwardCnt hl).toNat lists.flatten.length with hlow | heq | hhigh
      · -- too low: released before the last record
        obtain ⟨u, hu, hw, hlen⟩ := hkept.exists_early quiet_initial (Nat.zero_le _) hlow
        have hperm := ((hall u hu).2.1 hw).length_eq
        rw [length_map, length_map, ← hflat.length_eq] at hperm
        omega
      · exact heq
      · -- too high: never released
        have hkept' := ht.invariant hkept fun _ _ _ hs hfit hstep => hs.step hfit hstep
        have hcount := hkept'.released hreleased
        have hcard := hkept'.card_owed
        omega
  · intro hcnt
    obtain ⟨lists, hstart, hflat, hkept⟩ := exists_startForward hw hw' hcnt
    have hlen : (forwardCnt hl).toNat = lists.flatten.length := by rw [hcnt, hflat.length_eq]
    rw [hlen] at hkept
    refine ⟨lists, hstart, fun s hs => ?_⟩
    rw [hlen] at hs ⊢
    have hs' := hs.invariant hkept fun _ _ _ hs hfit hstep => hs.step hfit hstep
    have hnames : (∀ p ∈ s.threads, p = .done) →
        (s.retList.map RetDataInfo.nodeName).Perm (hl.dedup.map some) := fun hdone =>
      (names_eq_hosts_iff.1 (hs'.names_of_done hdone)).trans (hflat.map some)
    exact ⟨hnames, fun hw => hnames (hs'.all_done (hs'.released hw)), hs'.exists_released⟩

end

end Slurmpp.Forward
