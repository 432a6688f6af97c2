/-
  Exclusion, wake-ups and the order of locks.  Four facts hold in every reachable state (`Inv`):

  * `ordered`    — a thread takes locks in order and goes back the same way;
  * `tally`      — the counters are the sums of the threads' shares;
  * `exclusive`  — one writer and no reader, or readers;
  * `rests`      — who SLEEPS has something to wait for: whatever could make a lock available ends with a broadcast.

  From the order comes the absence of deadlock.  The rank `2 d + (1 for a writer)` rises from the blocked to the
  blocking thread, and no set of threads blocks itself.
-/
import Slurmpp.Slurmctld.Locks

namespace Slurmpp.Locks

open Function

/-! ## One move -/

section Local

variable {d : Datatype} {f f' : Flags} {pc pc' : Pc} {b : Bool} {level : LockLevel}

theorem tally_eq (h : f'.tally = f.tally) : f'.readLock = f.readLock ∧ f'.writeLock = f.writeLock ∧
    f'.writeWaitLock = f.writeWaitLock :=
  ⟨congrArg Prod.fst h, congrArg (fun x => x.2.1) h, congrArg (fun x => x.2.2) h⟩

theorem Flags.Taken.congr (h : f.Taken level) (ht : f'.tally = f.tally) : f'.Taken level := by
  obtain ⟨hr, hw, hq⟩ := tally_eq ht
  cases level with
  | noLock => exact h
  | readLock =>
    rw [Taken, forReader, hw, hq]
    exact h
  | writeLock =>
    rw [Taken, forWriter, hr, hw]
    exact h

theorem sleeps_counts {waitLock : Bool} {w : Wait} (h : attempt level waitLock w f = .sleeps f') :
    f'.readLock = f.readLock ∧ f'.writeLock = f.writeLock ∧ f.writeWaitLock ≤ f'.writeWaitLock := by
  have ht := (attempt_sleeps h).2.2
  have hr : f'.readLock = f.readLock + _ := congrArg Prod.fst ht
  have hw : f'.writeLock = f.writeLock + _ := congrArg (fun x => x.2.1) ht
  have hq : f'.writeWaitLock = f.writeWaitLock + _ := congrArg (fun x => x.2.2) ht
  rw [hr, hw, hq]
  cases level with
  | noLock | readLock => exact ⟨add_zero _, add_zero _, (add_zero _).ge⟩
  | writeLock =>
    refine ⟨add_zero _, add_zero _, ?_⟩
    dsimp only [LockLevel.queue]
    split_ifs <;> omega

/-- **One writer, or readers**: who gives a lock back had it. -/
theorem Moves.exclusive (h : Moves d f pc f' pc' b) (ho : pc.Ordered) (he : f.Exclusive)
    (hshare : pc.share d ≤ f.tally) : f'.Exclusive := by
  cases h with
  | call | giveBack | enter | leave | wake => exact he
  | @got waitLock levels done todo w f' h =>
    obtain ⟨hfree, ht⟩ := attempt_got h
    cases hl : levels.level d with
    | noLock =>
      rw [hl, LockLevel.gain] at ht
      obtain ⟨hr, hw, -⟩ := tally_eq (ht.trans (add_zero _))
      rw [Flags.Exclusive, hr, hw]
      exact he
    | readLock =>
      rw [hl, LockLevel.gain] at ht
      rw [hl, Flags.Taken, not_not] at hfree
      have hw : f'.writeLock = f.writeLock + 0 := congrArg (fun x => x.2.1) ht
      exact .inl (by rw [hw, hfree.1]; rfl)
    | writeLock =>
      rw [hl, LockLevel.gain] at ht
      rw [hl, Flags.Taken, not_not] at hfree
      have hr : f'.readLock = f.readLock + 0 := congrArg Prod.fst ht
      have hw : f'.writeLock = f.writeLock + 1 := congrArg (fun x => x.2.1) ht
      exact .inr ⟨by rw [hw, hfree.2]; rfl, by rw [hr, hfree.1]; rfl⟩
  | refused h =>
    obtain ⟨hr, hw, -⟩ := tally_eq (attempt_refused h (ho.fresh h))
    rw [Flags.Exclusive, hr, hw]
    exact he
  | sleeps h =>
    obtain ⟨hr, hw, -⟩ := sleeps_counts h
    rw [Flags.Exclusive, hr, hw]
    exact he
  | @release failed levels todo =>
    have hmem : d ∈ (Pc.unlocking failed levels (d :: todo)).passed := List.mem_cons_self
    rw [share_eq, if_pos hmem, Pc.level] at hshare
    cases hl : levels.level d with
    | noLock => exact he
    | readLock =>
      rw [hl] at hshare
      have hr : 1 ≤ f.readLock := hshare.1
      rcases he with hw | ⟨-, hr'⟩
      · exact .inl hw
      · omega
    | writeLock =>
      rw [hl] at hshare
      have hw : 1 ≤ f.writeLock := hshare.2.1
      show f.writeLock - 1 = 0 ∨ _
      rcases he with hw' | ⟨hw', -⟩
      · omega
      · exact .inl (by omega)

/-- **No wake-up is lost**: without a broadcast no lock becomes available. -/
theorem Moves.taken (h : Moves d f pc f' pc' b) (hb : b = false) (ho : pc.Ordered)
    (h0 : 0 ≤ f.tally) (ht : f.Taken level) : f'.Taken level := by
  have hr : 0 ≤ f.readLock := h0.1
  have hq : 0 ≤ f.writeWaitLock := h0.2.2
  cases h with
  | call | giveBack | enter | leave | wake => exact ht
  | @got waitLock levels done todo w f' h =>
    obtain ⟨hfree, hgain⟩ := attempt_got h
    cases hl : levels.level d with
    | noLock =>
      rw [hl, LockLevel.gain] at hgain
      exact ht.congr (hgain.trans (add_zero _))
    | readLock =>
      -- a reader gets in only where no reader waits, and then keeps writers out
      rw [hl, LockLevel.gain] at hgain
      rw [hl, Flags.Taken, not_not] at hfree
      have hr' : f'.readLock = f.readLock + 1 := congrArg Prod.fst hgain
      cases level with
      | noLock => exact ht
      | readLock => exact absurd hfree ht
      | writeLock => exact fun h => by have := h.1; omega
    | writeLock =>
      rw [hl, LockLevel.gain] at hgain
      rw [hl, Flags.Taken, not_not] at hfree
      have hw' : f'.writeLock = f.writeLock + 1 := congrArg (fun x => x.2.1) hgain
      have hw := hfree.2
      cases level with
      | noLock => exact ht
      | readLock => exact fun h => by have := h.1; omega
      | writeLock => exact fun h => by have := h.2; omega
  | refused h => exact ht.congr (attempt_refused h (ho.fresh h))
  | sleeps h =>
    obtain ⟨hr', hw', hq'⟩ := sleeps_counts h
    cases level with
    | noLock => exact ht
    | readLock =>
      rintro ⟨hw0, hq0⟩
      exact ht ⟨by omega, by omega⟩
    | writeLock =>
      rintro ⟨hr0, hw0⟩
      exact ht ⟨by omega, by omega⟩
  | release =>
    rw [decide_eq_false_iff_not, not_not] at hb
    rw [hb]
    exact ht

theorem rests_wake (entity : Datatype → Flags) : pc.wake.Rests entity := by
  cases pc with
  | locking waitLock levels done todo w =>
    cases w <;> cases todo <;> trivial
  | idle | held | unlocking => trivial

theorem rests_fresh {waitLock : Bool} {levels : SlurmctldLock} {done todo : List Datatype}
    (entity : Datatype → Flags) : (Pc.locking waitLock levels done todo .fresh).Rests entity := by
  cases todo <;> trivial

theorem Moves.rests (h : Moves d f pc f' pc' b) {entity : Datatype → Flags} (hd : entity d = f') :
    pc'.Rests entity := by
  cases h with
  | call | got => exact rests_fresh entity
  | giveBack | enter | refused | release | leave => trivial
  | sleeps h =>
    show (entity d).Taken _
    rw [hd]
    exact (attempt_sleeps h).2.1
  | wake => exact rests_wake entity

theorem Pc.Rests.update {entity : Datatype → Flags} (h : pc.Rests entity)
    (hf : ∀ level, (entity d).Taken level → f'.Taken level) : pc.Rests (update entity d f') := by
  unfold Pc.Rests at h ⊢
  split at h
  next waitLock levels done d' todo =>
    by_cases hd : d' = d
    · subst hd
      show (update entity d' f' d').Taken _
      rw [update_self]
      exact hf _ h
    · show (update entity d f' d').Taken _
      rw [update_of_ne hd]
      exact h
  · trivial

theorem share_nonneg : 0 ≤ pc.share d := by
  unfold Pc.share
  refine ⟨?_, ?_, ?_⟩ <;>
  · dsimp only
    split_ifs <;> simp

end Local

/-! ## All threads -/

variable {τ : Type*} [Fintype τ] {s s' : State τ}

/-- **The invariant of the locks.** -/
structure Inv (s : State τ) : Prop where
  ordered : ∀ t, (s.thread t).Ordered
  tally : ∀ d, (s.entity d).tally = ∑ t, (s.thread t).share d
  exclusive : ∀ d, (s.entity d).Exclusive
  rests : ∀ t, (s.thread t).Rests s.entity

theorem inv_initLocks : Inv (initLocks τ) := by
  refine ⟨fun _ => trivial, fun d => ?_, fun _ => .inl rfl, fun _ => trivial⟩
  simp only [initLocks, share_idle, Finset.sum_const_zero]
  rfl

theorem Inv.tally_nonneg (h : Inv s) : 0 ≤ (s.entity d).tally := by
  rw [h.tally]
  exact Finset.sum_nonneg fun _ _ => share_nonneg

theorem Inv.share_le (h : Inv s) (t : τ) : (s.thread t).share d ≤ (s.entity d).tally := by
  rw [h.tally]
  exact Finset.single_le_sum (fun _ _ => share_nonneg)
    (Finset.mem_univ t)

variable {t u : τ} {d d' : Datatype} {pc : Pc} {level : LockLevel}

/-! ## Who holds what -/

def State.readers (s : State τ) (d : Datatype) : Finset τ :=
  Finset.univ.filter fun t => (s.thread t).reads d

def State.writers (s : State τ) (d : Datatype) : Finset τ :=
  Finset.univ.filter fun t => (s.thread t).writes d

def State.waiters (s : State τ) (d : Datatype) : Finset τ :=
  Finset.univ.filter fun t => (s.thread t).awaits d

theorem Inv.readLock_eq (h : Inv s) (d : Datatype) : (s.entity d).readLock = (s.readers d).card := by
  have hsum : (s.entity d).readLock = (∑ t, (s.thread t).share d).1 := congrArg Prod.fst (h.tally d)
  rw [hsum, Prod.fst_sum]
  exact Finset.sum_boole _ _

theorem Inv.writeLock_eq (h : Inv s) (d : Datatype) : (s.entity d).writeLock = (s.writers d).card := by
  have hsum : (s.entity d).writeLock = (∑ t, (s.thread t).share d).2.1 :=
    congrArg (fun x => x.2.1) (h.tally d)
  rw [hsum, Prod.snd_sum, Prod.fst_sum]
  exact Finset.sum_boole _ _

theorem Inv.writeWaitLock_eq (h : Inv s) (d : Datatype) : (s.entity d).writeWaitLock = (s.waiters d).card := by
  have hsum : (s.entity d).writeWaitLock = (∑ t, (s.thread t).share d).2.2 :=
    congrArg (fun x => x.2.2) (h.tally d)
  rw [hsum, Prod.snd_sum, Prod.snd_sum]
  exact Finset.sum_boole _ _

theorem Inv.one_writer (h : Inv s) (d : Datatype) :
    (s.writers d).card ≤ 1 ∧ ((s.writers d).Nonempty → s.readers d = ∅) := by
  have hr := h.readLock_eq d
  have hw := h.writeLock_eq d
  rcases h.exclusive d with h0 | ⟨h1, h0⟩
  · have hnone : (s.writers d).card = 0 := by omega
    refine ⟨by omega, fun hne => ?_⟩
    have := Finset.card_pos.2 hne
    omega
  · refine ⟨by omega, fun _ => Finset.card_eq_zero.1 ?_⟩
    omega

/-! ## The order of locks -/

/-- The lock that a call of `lock_slurmctld` is at. -/
def Pc.wants : Pc → Option (Datatype × LockLevel)
  | .locking true levels _ (d :: _) _ => some (d, levels.level d)
  | _ => none

/-- **`t` is blocked by `u`** in `lock_slurmctld`: a reader by who has or waits for the write lock, a
    writer by who has a lock. -/
def State.Blocked (s : State τ) (t u : τ) : Prop :=
  ∃ d, (s.thread t).wants = some (d, .readLock) ∧
      ((s.thread u).writes d ∨ (s.thread u).awaits d) ∨
    (s.thread t).wants = some (d, .writeLock) ∧ ((s.thread u).reads d ∨ (s.thread u).writes d)

/-- How far a call has come; a writer is ahead of a reader. -/
def Pc.rank (pc : Pc) : Nat :=
  match pc.wants with
  | some (d, level) => 2 * d.index + if level = .writeLock then 1 else 0
  | none => 0

theorem Pc.Ordered.index_lt (h : pc.Ordered)
    (hd : d ∈ pc.passed) (hw : pc.wants = some (d', level)) : d.index < d'.index := by
  unfold Pc.wants at hw
  split at hw
  next levels done d0 todo w =>
    obtain ⟨rfl, -⟩ := Prod.mk.inj (Option.some.inj hw)
    have hsorted : (done.reverse ++ d0 :: todo).Pairwise fun a b => a.index < b.index := by
      rw [h.1]
      decide
    exact (List.pairwise_append.1 hsorted).2.2 d (List.mem_reverse.2 hd) d0 List.mem_cons_self
  · cases hw

theorem wants_of_awaits (ha : pc.awaits d) (hw : pc.wants = some (d', level)) : d' = d ∧ level = .writeLock := by
  unfold Pc.wants at hw
  split at hw
  next levels done d0 todo w =>
    cases hw
    obtain ⟨rfl, hl, -⟩ := ha
    exact ⟨rfl, hl⟩
  · cases hw

/-- **The rank rises** from the blocked to the blocking thread, if that one wants a lock too. -/
theorem Inv.rank_lt (h : Inv s) (hb : s.Blocked t u) (hu : (s.thread u).wants ≠ none) :
    (s.thread t).rank < (s.thread u).rank := by
  obtain ⟨⟨d', level⟩, hw⟩ := Option.ne_none_iff_exists'.1 hu
  have hranku : (s.thread u).rank = 2 * d'.index + if level = .writeLock then 1 else 0 := by
    rw [Pc.rank, hw]
  obtain ⟨d, ⟨ht, hhold⟩ | ⟨ht, hhold⟩⟩ := hb
  · have hrank : (s.thread t).rank = 2 * d.index := by
      rw [Pc.rank, ht]
      rfl
    rcases hhold with hhold | hhold
    · have := (h.ordered u).index_lt hhold.1 hw
      omega
    · obtain ⟨rfl, rfl⟩ := wants_of_awaits hhold hw
      rw [if_pos rfl] at hranku
      omega
  · have hrank : (s.thread t).rank = 2 * d.index + 1 := by
      rw [Pc.rank, ht]
      rfl
    have hd : d ∈ (s.thread u).passed := hhold.elim And.left And.left
    have := (h.ordered u).index_lt hd hw
    omega

/-- **No set of threads blocks itself.** -/
theorem Inv.no_ring (h : Inv s) {S : Finset τ} (hS : S.Nonempty) :
    ∃ t ∈ S, ∀ u ∈ S, (s.thread u).wants ≠ none → ¬s.Blocked t u := by
  obtain ⟨t, ht, hfree⟩ := exists_unblocked
    (R := fun t u => s.Blocked t u ∧ (s.thread u).wants ≠ none)
    (fun t u hR => h.rank_lt hR.1 hR.2) hS
  exact ⟨t, ht, fun u hu hw hb => hfree u hu ⟨hb, hw⟩⟩

def Pc.calling : Pc → Prop
  | .locking true _ _ _ _ => True
  | _ => False

theorem Inv.blocked_of_taken (h : Inv s) (hw : (s.thread t).wants = some (d, level)) (ht : (s.entity d).Taken level) :
    ∃ u, s.Blocked t u := by
  have hcard : ∀ {S : Finset τ} {n : Int}, n = S.card → n ≠ 0 → S.Nonempty := by
    intro S n hn h0
    refine Finset.card_pos.1 ?_
    omega
  cases level with
  | noLock => exact absurd ht id
  | readLock =>
    rcases not_and_or.1 ht with h0 | h0
    · obtain ⟨u, hu⟩ := hcard (h.writeLock_eq d) h0
      exact ⟨u, d, .inl ⟨hw, .inl (Finset.mem_filter.1 hu).2⟩⟩
    · obtain ⟨u, hu⟩ := hcard (h.writeWaitLock_eq d) h0
      exact ⟨u, d, .inl ⟨hw, .inr (Finset.mem_filter.1 hu).2⟩⟩
  | writeLock =>
    rcases not_and_or.1 ht with h0 | h0
    · obtain ⟨u, hu⟩ := hcard (h.readLock_eq d) h0
      exact ⟨u, d, .inr ⟨hw, .inl (Finset.mem_filter.1 hu).2⟩⟩
    · obtain ⟨u, hu⟩ := hcard (h.writeLock_eq d) h0
      exact ⟨u, d, .inr ⟨hw, .inr (Finset.mem_filter.1 hu).2⟩⟩

theorem exists_of_calling (h : pc.calling) : ∃ levels done todo w, pc = .locking true levels done todo w := by
  unfold Pc.calling at h
  split at h
  · exact ⟨_, _, _, _, rfl⟩
  · exact absurd h id

omit [Fintype τ] in
theorem not_blocked_by_idle (hu : s.thread u = .idle) : ¬s.Blocked t u := by
  rintro ⟨d, ⟨-, h | h⟩ | ⟨-, h | h⟩⟩ <;> rw [hu] at h
  · exact absurd h.1 (by simp [Pc.passed])
  · exact h
  · exact absurd h.1 (by simp [Pc.passed])
  · exact absurd h.1 (by simp [Pc.passed])

/-! ## Steps -/

variable [DecidableEq τ]

theorem Inv.after {f : Flags} {b : Bool} (h : Inv s)
    (hm : Moves d (s.entity d) (s.thread t) f pc b) (ha : After s t d f pc b s') : Inv s' := by
  refine ⟨fun u => ?_, fun d' => ?_, fun d' => ?_, fun u => ?_⟩
  · rw [ha.thread]
    exact Pc.Ordered.hear ((forall_update_iff s.thread fun _ (pc : Pc) => pc.Ordered).2
      ⟨hm.ordered (h.ordered t), fun u _ => h.ordered u⟩ u)
  · have hsum := sum_update (fun _ (pc : Pc) => pc.share d') s.thread t pc
    have hthread : ∑ u, (s'.thread u).share d' =
        ∑ u, (update s.thread t pc u).share d' :=
      Finset.sum_congr rfl fun u _ => by rw [ha.thread, share_hear]
    rw [hthread, ha.entity]
    rw [← h.tally] at hsum
    by_cases hd : d' = d
    · subst hd
      rw [update_self]
      exact add_right_cancel ((hm.tally (h.ordered t)).trans hsum.symm)
    · rw [update_of_ne hd]
      rw [hm.share_of_ne (h.ordered t) hd] at hsum
      exact (add_right_cancel hsum).symm
  · rw [ha.entity]
    by_cases hd : d' = d
    · subst hd
      rw [update_self]
      exact hm.exclusive (h.ordered t) (h.exclusive d') (h.share_le t)
    · rw [update_of_ne hd]
      exact h.exclusive d'
  · rw [ha.thread, ha.entity]
    cases b with
    | true => exact rests_wake _
    | false =>
      show (update s.thread t pc u).Rests _
      by_cases hu : u = t
      · subst hu
        rw [update_self]
        exact hm.rests (update_self _ _ _)
      · rw [update_of_ne hu]
        exact (h.rests u).update fun level ht =>
          hm.taken rfl (h.ordered t) h.tally_nonneg ht

theorem Inv.step {e : Event τ} (h : Inv s) (hs : locks.step s e = some s') : Inv s' := by
  obtain ⟨d, f, pc, b, hm, ha⟩ := step_moves hs
  exact h.after hm ha

theorem reach_inv {P : State τ → Event τ → Prop} (h : Inv s) (hr : locks.Reach P s s') : Inv s' :=
  hr.invariant (I := Inv) h fun _ _ _ hI _ hs => hI.step hs

/-! ## A thread on its own -/

theorem Inv.tally_of_idle (h : Inv s) (ht : s.thread t = .idle) :
    (s.entity d).tally = ∑ u ∈ Finset.univ.erase t, (s.thread u).share d := by
  rw [h.tally, ← Finset.add_sum_erase _ _ (Finset.mem_univ t), ht, share_idle, zero_add]

omit [Fintype τ] in
theorem share_of_others (hu : u ≠ t) (h : locks.Reach (fun _ e => e.mover = t) s s') :
    (s'.thread u).share d = (s.thread u).share d := by
  refine h.invariant (I := fun s' => (s'.thread u).share d = (s.thread u).share d) rfl ?_
  rintro s1 e s2 hI rfl hs
  obtain ⟨d', f, pc, b, -, ha⟩ := step_moves hs
  rw [ha.thread, share_hear, update_of_ne hu]
  exact hI

/-- The next critical section of `t` gives it a lock, or its call returns. -/
def State.Granted (s : State τ) (t : τ) : Prop :=
  ∃ s', s.advance t = some s' ∧ ((s'.thread t).passed.length = (s.thread t).passed.length + 1 ∨
    ∃ levels, s'.thread t = .held levels)

omit [Fintype τ] in
theorem granted_of_free {levels : SlurmctldLock} {done todo : List Datatype} {w : Wait}
    (ht : s.thread t = .locking true levels done (d :: todo) w) (hw : w ≠ .asleep)
    (hfree : ¬(s.entity d).Taken (levels.level d)) : s.Granted t := by
  obtain ⟨f, hf⟩ : ∃ f, attempt (levels.level d) true w (s.entity d) = .got f := by
    cases hl : levels.level d with
    | noLock => exact ⟨_, rfl⟩
    | readLock =>
      rw [hl, Flags.Taken, not_not] at hfree
      exact ⟨_, by rw [attempt, wrRdlock, if_pos hfree]⟩
    | writeLock =>
      rw [hl, Flags.Taken, not_not] at hfree
      by_cases hfresh : w = .fresh
      · exact ⟨_, by simp only [attempt, wrWrlock, if_pos hfresh]; exact if_pos hfree⟩
      · exact ⟨_, by simp only [attempt, wrWrlock, if_neg hfresh]; exact if_pos hfree⟩
  refine ⟨(s.setEntity d f).setThread t (.locking true levels (d :: done) todo .fresh), ?_, .inl ?_⟩
  · cases w with
    | asleep => exact absurd rfl hw
    | fresh | woken => simp only [State.advance, ht, hf]
  · rw [ht]
    simp [State.setThread, Pc.passed]

/-- **Somebody gets on**: if all threads that are not idle are in `lock_slurmctld`, one of them gets
    its next lock or returns. -/
theorem Inv.progress (h : Inv s) (ht : (s.thread t).calling)
    (hall : ∀ u, s.thread u = .idle ∨ (s.thread u).calling) : ∃ u, s.Granted u := by
  classical
  by_cases hdone : ∃ u levels done w, s.thread u = .locking true levels done [] w
  · -- somebody has all its locks
    obtain ⟨u, levels, done, w, hu⟩ := hdone
    refine ⟨u, s.setThread u (.held levels), ?_, .inr ⟨levels, ?_⟩⟩
    · simp only [State.advance, hu]
    · simp [State.setThread]
  · have hwants : ∀ u, (s.thread u).calling → (s.thread u).wants ≠ none := by
      intro u hu
      obtain ⟨levels, done, todo, w, hpc⟩ := exists_of_calling hu
      cases todo with
      | nil => exact absurd ⟨u, levels, done, w, hpc⟩ hdone
      | cons d todo => simp [hpc, Pc.wants]
    obtain ⟨u, hu, hfree⟩ := h.no_ring (S := Finset.univ.filter fun u => (s.thread u).calling)
      ⟨t, by simpa using ht⟩
    have hcall : (s.thread u).calling := by simpa using hu
    -- nobody blocks `u`
    have hnone : ∀ v, ¬s.Blocked u v := by
      intro v
      rcases hall v with hv | hv
      · exact not_blocked_by_idle hv
      · exact hfree v (by simpa using hv) (hwants v hv)
    obtain ⟨levels, done, todo, w, hpc⟩ := exists_of_calling hcall
    cases todo with
    | nil => exact absurd ⟨u, levels, done, w, hpc⟩ hdone
    | cons d todo =>
      have hnot : ¬(s.entity d).Taken (levels.level d) := fun htaken => by
        obtain ⟨v, hv⟩ := h.blocked_of_taken (by rw [hpc]; rfl) htaken
        exact hnone v hv
      refine ⟨u, granted_of_free hpc ?_ hnot⟩
      rintro rfl
      have hrests := h.rests u
      rw [hpc] at hrests
      exact hnot hrests

/-! ## The locks of slurmctld -/

/-- **What the locks do**, for any number of threads and any interleaving of their calls.  In every
    reachable state, for every data type:

    1. there is at most one writer, and no reader beside it;
    2. the counters are the numbers of readers, of writers and of those who wait to write;
    3. a thread that was idle and is idle again, because its try failed or it has given back what it
       had, has left no trace in them: what has changed is what the other threads have changed, and
       nothing has if only this thread has moved;
    4. in no set of threads is everybody blocked, in `lock_slurmctld`, by somebody in the set;
    5. if all threads that are not idle are in `lock_slurmctld`, one of them gets its next lock. -/
theorem locks_sound (τ : Type*) [DecidableEq τ] [Fintype τ] (s : State τ)
    (h : locks.Reach (fun _ _ => True) (initLocks τ) s) :
    (∀ d, (s.writers d).card ≤ 1 ∧ ((s.writers d).Nonempty → s.readers d = ∅)) ∧
    (∀ d, (s.entity d).readLock = (s.readers d).card ∧ (s.entity d).writeLock = (s.writers d).card ∧
      (s.entity d).writeWaitLock = (s.waiters d).card) ∧
    (∀ t s', s.thread t = .idle → locks.Reach (fun _ _ => True) s s' → s'.thread t = .idle →
      ∀ d, (s'.entity d).tally - (s.entity d).tally = ∑ u ∈ Finset.univ.erase t,
        ((s'.thread u).share d - (s.thread u).share d)) ∧
    (∀ t s', s.thread t = .idle → locks.Reach (fun _ e => e.mover = t) s s' → s'.thread t = .idle →
      ∀ d, (s'.entity d).tally = (s.entity d).tally) ∧
    (∀ S : Finset τ, S.Nonempty → ¬∀ t ∈ S, ∃ u ∈ S, s.Blocked t u) ∧
    ((∃ t, (s.thread t).calling) → (∀ u, s.thread u = .idle ∨ (s.thread u).calling) →
      ∃ u, s.Granted u) := by
  have hI : Inv s := reach_inv inv_initLocks h
  have hidle : ∀ t s', s.thread t = .idle → locks.Reach (fun _ _ => True) s s' →
      s'.thread t = .idle → ∀ d, (s'.entity d).tally - (s.entity d).tally =
        ∑ u ∈ Finset.univ.erase t, ((s'.thread u).share d - (s.thread u).share d) := by
    intro t s' ht hs' ht' d
    rw [(reach_inv hI hs').tally_of_idle ht', hI.tally_of_idle ht, Finset.sum_sub_distrib]
  refine ⟨hI.one_writer, fun d => ⟨hI.readLock_eq d, hI.writeLock_eq d, hI.writeWaitLock_eq d⟩,
    hidle, fun t s' ht hs' ht' d => ?_, fun S hS hall => ?_, fun ⟨t, ht⟩ => hI.progress ht⟩
  · have hsum := hidle t s' ht (hs'.mono fun _ _ _ => trivial) ht' d
    have hzero : ∀ u ∈ Finset.univ.erase t, (s'.thread u).share d - (s.thread u).share d = 0 :=
      fun u hu => sub_eq_zero.2 (share_of_others (Finset.ne_of_mem_erase hu) hs')
    rw [Finset.sum_eq_zero hzero] at hsum
    exact sub_eq_zero.1 hsum
  · -- who is blocked wants a lock
    have hwants : ∀ t ∈ S, (s.thread t).wants ≠ none := by
      intro t ht
      obtain ⟨u, -, d, ⟨hw, -⟩ | ⟨hw, -⟩⟩ := hall t ht <;> simp [hw]
    obtain ⟨t, ht, hfree⟩ := hI.no_ring hS
    obtain ⟨u, hu, hb⟩ := hall t ht
    exact hfree u hu (hwants u hu) hb

/-- Two threads: the second reads jobs; the first tries for the write locks of the configuration and
    of jobs. -/
def tryRun : List (Event (Fin 2)) :=
  [.tryLockSlurmctld 0 ⟨.writeLock, .writeLock, .noLock, .noLock⟩, .step 0, .step 0, .step 0, .step 0]

def readerRun : List (Event (Fin 2)) :=
  [.lockSlurmctld 1 ⟨.noLock, .readLock, .noLock, .noLock⟩, .step 1, .step 1, .step 1, .step 1, .step 1]

theorem locks_sound_pair : ∃ s : State (Fin 2),
    locks.Reach (fun _ _ => True) (initLocks (Fin 2)) s ∧ (s.readers .job).card = 1 ∧
      (s.entity .job).readLock = (s.readers .job).card := by
  have hend : ∀ s : State (Fin 2), locks.Reach (fun _ _ => True) (initLocks (Fin 2)) s →
      (s.entity .job).readLock = (s.readers .job).card := fun s hs =>
    ((locks_sound (Fin 2) s hs).2.1 .job).1
  have hrun : locks.Reach (fun _ _ => True) (initLocks (Fin 2)) _ :=
    .of_run readerRun .start (by decide) rfl
  exact ⟨_, hrun, by decide, hend _ hrun⟩

/-- **A try that fails leaves a trace in `write_cnt_lock`**: the write lock of the configuration was
    got and counted, and is given back without being counted off. -/
theorem failed_try_counts : ∃ s s' : State (Fin 2),
    locks.run (initLocks (Fin 2)) readerRun = some s ∧ locks.run s tryRun = some s' ∧
      s.thread 0 = .idle ∧ s'.thread 0 = .idle ∧ (s.entity .config).writeCntLock = 0 ∧
      (s'.entity .config).writeCntLock = 1 := by
  refine ⟨_, _, rfl, rfl, ?_, ?_, ?_, ?_⟩ <;> decide

end Slurmpp.Locks
