/-
  The read/write locks of slurmctld, and what their counters count.  A call names a level for each of four data types
  and gets them in a fixed order, each in a critical section of its own, which is a step of the machine:

  * `_wr_rdlock`, `_wr_wrlock`    — get the lock, go to sleep on `locks_cond`, or (a try) give up;
  * `_wr_rdunlock`, `_wr_wrunlock` — give it back and wake everybody who sleeps.

  A writer that has to wait counts itself in `write_wait_lock` ONCE, before it first looks (`Wait`).  What the counters
  mean is a SUM over the threads of what each of them has at the moment (`Pc.share`), shown for each step by looking at
  the one thread that moves (`Moves`).  `write_cnt_lock` is not such a sum, and only read in code that is compiled out.
-/
import Slurmpp.Lib.Machine
import Slurmpp.Lib.Threads

namespace Slurmpp.Locks

open List

/-! ## Data -/

inductive LockLevel
  | noLock
  | readLock
  | writeLock
deriving DecidableEq, Repr

/-- `lock_datatype_t`, in the order in which locks are taken. -/
inductive Datatype
  | config
  | job
  | node
  | part
deriving DecidableEq, Repr

def Datatype.index : Datatype → Nat
  | .config => 0
  | .job => 1
  | .node => 2
  | .part => 3

/-- The order in which `lock_slurmctld` and `try_lock_slurmctld` take locks. -/
def order : List Datatype := [.config, .job, .node, .part]

structure SlurmctldLock where
  config : LockLevel
  job : LockLevel
  node : LockLevel
  partition : LockLevel
deriving DecidableEq, Repr

def SlurmctldLock.level (l : SlurmctldLock) : Datatype → LockLevel
  | .config => l.config
  | .job => l.job
  | .node => l.node
  | .part => l.partition

/-- The four entries of `slurmctld_locks.entity` for one data type. -/
structure Flags where
  readLock : Int
  writeLock : Int
  writeWaitLock : Int
  writeCntLock : Int
deriving DecidableEq, Repr

/-- What a critical section of `_wr_rdlock` or `_wr_wrlock` comes to. -/
inductive Outcome
  | got (f : Flags)
  | refused (f : Flags)
  | sleeps (f : Flags)
deriving DecidableEq

/-- Where a thread stands with the lock it wants: it has not looked yet, sleeps, or has been woken. -/
inductive Wait
  | fresh
  | asleep
  | woken
deriving DecidableEq, Repr

/-- A read lock is to be had. -/
def Flags.forReader (f : Flags) : Prop := f.writeLock = 0 ∧ f.writeWaitLock = 0

/-- A write lock is to be had. -/
def Flags.forWriter (f : Flags) : Prop := f.readLock = 0 ∧ f.writeLock = 0

instance (f : Flags) : Decidable f.forReader := inferInstanceAs (Decidable (_ ∧ _))
instance (f : Flags) : Decidable f.forWriter := inferInstanceAs (Decidable (_ ∧ _))

/-- `_wr_rdlock` up to its end or to `pthread_cond_wait`. -/
def wrRdlock (waitLock : Bool) (f : Flags) : Outcome :=
  if f.forReader then .got { f with readLock := f.readLock + 1, writeCntLock := 0 }
  else if waitLock then .sleeps f
  else .refused f

/-- `_wr_wrlock` up to its end or to `pthread_cond_wait`; the count of waiting writers goes up only on
    entry. -/
def wrWrlock (waitLock : Bool) (w : Wait) (f : Flags) : Outcome :=
  let f := if w = .fresh then { f with writeWaitLock := f.writeWaitLock + 1 } else f
  if f.forWriter then
    .got { f with
      writeLock := f.writeLock + 1
      writeWaitLock := f.writeWaitLock - 1
      writeCntLock := f.writeCntLock + 1 }
  else if waitLock then .sleeps f
  else .refused { f with writeWaitLock := f.writeWaitLock - 1 }

/-- `_wr_rdunlock`, without the broadcast. -/
def wrRdunlock (f : Flags) : Flags := { f with readLock := f.readLock - 1 }

/-- `_wr_wrunlock`, without the broadcast. -/
def wrWrunlock (f : Flags) : Flags := { f with writeLock := f.writeLock - 1 }

/-- The lock of one data type at the level asked for. -/
def attempt (level : LockLevel) (waitLock : Bool) (w : Wait) (f : Flags) : Outcome :=
  match level with
  | .noLock => .got f
  | .readLock => wrRdlock waitLock f
  | .writeLock => wrWrlock waitLock w f

def release (level : LockLevel) (f : Flags) : Flags :=
  match level with
  | .noLock => f
  | .readLock => wrRdunlock f
  | .writeLock => wrWrunlock f

/-! ## Threads -/

/-- Where a thread is.  `done` are the data types it has been through, the last one first: that is the
    order in which a failed try and `unlock_slurmctld` go back. -/
inductive Pc
  | idle
  | locking (waitLock : Bool) (levels : SlurmctldLock) (done todo : List Datatype) (w : Wait)
  | held (levels : SlurmctldLock)
  | unlocking (failed : Bool) (levels : SlurmctldLock) (todo : List Datatype)
deriving DecidableEq, Repr

/-- A broadcast wakes who sleeps. -/
def Pc.wake : Pc → Pc
  | .locking waitLock levels done todo .asleep => .locking waitLock levels done todo .woken
  | pc => pc

structure State (τ : Type*) where
  entity : Datatype → Flags
  thread : τ → Pc

def initLocks (τ : Type*) : State τ := ⟨fun _ => ⟨0, 0, 0, 0⟩, fun _ => .idle⟩

inductive Event (τ : Type*)
  | lockSlurmctld (t : τ) (levels : SlurmctldLock)
  | tryLockSlurmctld (t : τ) (levels : SlurmctldLock)
  | unlockSlurmctld (t : τ)
  | step (t : τ)
  | wakeUp (t : τ)
deriving DecidableEq

def Event.mover {τ : Type*} : Event τ → τ
  | .lockSlurmctld t _ | .tryLockSlurmctld t _ | .unlockSlurmctld t | .step t | .wakeUp t => t

namespace State

variable {τ : Type*} [DecidableEq τ]

def setThread (s : State τ) (t : τ) (pc : Pc) : State τ :=
  { s with thread := Function.update s.thread t pc }

def setEntity (s : State τ) (d : Datatype) (f : Flags) : State τ :=
  { s with entity := Function.update s.entity d f }

def broadcast (s : State τ) : State τ := { s with thread := fun t => (s.thread t).wake }

/-- The next critical section of a thread, or its return from the call. -/
def advance (s : State τ) (t : τ) : Option (State τ) :=
  match s.thread t with
  | .idle | .held _ => none
  | .locking _ levels _ [] _ => some (s.setThread t (.held levels))
  | .locking _ _ _ (_ :: _) .asleep => none
  | .locking waitLock levels done (d :: todo) w =>
    match attempt (levels.level d) waitLock w (s.entity d) with
    | .got f => some ((s.setEntity d f).setThread t (.locking waitLock levels (d :: done) todo .fresh))
    | .refused f => some ((s.setEntity d f).setThread t (.unlocking true levels done))
    | .sleeps f =>
      some ((s.setEntity d f).setThread t (.locking waitLock levels done (d :: todo) .asleep))
  | .unlocking _ _ [] => some (s.setThread t .idle)
  | .unlocking failed levels (d :: todo) =>
    let s' := (s.setEntity d (release (levels.level d) (s.entity d))).setThread t
      (.unlocking failed levels todo)
    some (if levels.level d = .noLock then s' else s'.broadcast)

end State

/-- The threads of slurmctld and their locks; a thread gives back what it has taken before it asks
    again. -/
def locks {τ : Type*} [DecidableEq τ] : Machine (State τ) (Event τ) where
  step s
    | .lockSlurmctld t levels =>
      if s.thread t = .idle then some (s.setThread t (.locking true levels [] order .fresh)) else none
    | .tryLockSlurmctld t levels =>
      if s.thread t = .idle then some (s.setThread t (.locking false levels [] order .fresh)) else none
    | .unlockSlurmctld t =>
      match s.thread t with
      | .held levels => some (s.setThread t (.unlocking false levels order.reverse))
      | _ => none
    | .step t => s.advance t
    | .wakeUp t => some (s.setThread t (s.thread t).wake)

/-! ## Shares -/

/-- The data types a thread has been through and not given back. -/
def Pc.passed : Pc → List Datatype
  | .idle => []
  | .locking _ _ done _ _ => done
  | .held _ => order
  | .unlocking _ _ todo => todo

def Pc.level : Pc → Datatype → LockLevel
  | .idle, _ => .noLock
  | .locking _ levels _ _ _, d => levels.level d
  | .held levels, d => levels.level d
  | .unlocking _ levels _, d => levels.level d

def Pc.reads (pc : Pc) (d : Datatype) : Prop := d ∈ pc.passed ∧ pc.level d = .readLock

def Pc.writes (pc : Pc) (d : Datatype) : Prop := d ∈ pc.passed ∧ pc.level d = .writeLock

/-- The thread waits for a write lock: it has looked for it and not got it. -/
def Pc.awaits : Pc → Datatype → Prop
  | .locking _ levels _ (d' :: _) w, d => d' = d ∧ levels.level d = .writeLock ∧ w ≠ .fresh
  | _, _ => False

instance (pc : Pc) (d : Datatype) : Decidable (pc.reads d) := inferInstanceAs (Decidable (_ ∧ _))
instance (pc : Pc) (d : Datatype) : Decidable (pc.writes d) := inferInstanceAs (Decidable (_ ∧ _))

instance : ∀ (pc : Pc) (d : Datatype), Decidable (pc.awaits d)
  | .locking _ levels _ (d' :: _) w, d =>
    inferInstanceAs (Decidable (d' = d ∧ levels.level d = .writeLock ∧ w ≠ .fresh))
  | .locking _ _ _ [] _, _ => inferInstanceAs (Decidable False)
  | .idle, _ => inferInstanceAs (Decidable False)
  | .held _, _ => inferInstanceAs (Decidable False)
  | .unlocking _ _ _, _ => inferInstanceAs (Decidable False)

/-- What a thread adds to the counters of `d`. -/
def Pc.share (pc : Pc) (d : Datatype) : Int × Int × Int :=
  (if pc.reads d then 1 else 0, if pc.writes d then 1 else 0, if pc.awaits d then 1 else 0)

/-- The counters that are sums. -/
def Flags.tally (f : Flags) : Int × Int × Int := (f.readLock, f.writeLock, f.writeWaitLock)

/-- Where a thread can be: it takes locks in order and goes back the same way. -/
def Pc.Ordered : Pc → Prop
  | .idle | .held _ => True
  | .locking waitLock _ done todo w => done.reverse ++ todo = order ∧ (w ≠ .fresh → waitLock = true)
  | .unlocking _ _ todo => todo.reverse <+: order

def Flags.Exclusive (f : Flags) : Prop := f.writeLock = 0 ∨ f.writeLock = 1 ∧ f.readLock = 0

def Flags.Taken (f : Flags) : LockLevel → Prop
  | .noLock => False
  | .readLock => ¬f.forReader
  | .writeLock => ¬f.forWriter

/-- A sleeper has something to wait for. -/
def Pc.Rests (entity : Datatype → Flags) : Pc → Prop
  | .locking _ levels _ (d :: _) .asleep => (entity d).Taken (levels.level d)
  | _ => True

/-! ## What an attempt does -/

section Attempt

variable {level : LockLevel} {waitLock : Bool} {w : Wait} {f f' : Flags}

/-- What a lock that is got adds to the counters; a writer that waited is counted off. -/
def LockLevel.gain (w : Wait) : LockLevel → Int × Int × Int
  | .noLock => (0, 0, 0)
  | .readLock => (1, 0, 0)
  | .writeLock => (0, 1, if w = .fresh then 0 else -1)

/-- What going to sleep adds to the counters; a writer is counted once. -/
def LockLevel.queue (w : Wait) : LockLevel → Int × Int × Int
  | .writeLock => (0, 0, if w = .fresh then 1 else 0)
  | _ => (0, 0, 0)

theorem attempt_got (h : attempt level waitLock w f = .got f') :
    ¬f.Taken level ∧ f'.tally = f.tally + level.gain w := by
  cases level with
  | noLock =>
    cases h
    exact ⟨id, (add_zero _).symm⟩
  | readLock =>
    rw [attempt, wrRdlock] at h
    split_ifs at h with hfree
    cases h
    exact ⟨not_not.2 hfree, by simp [Flags.tally, LockLevel.gain]⟩
  | writeLock =>
    by_cases hw : w = .fresh
    · simp only [attempt, wrWrlock, if_pos hw] at h
      split_ifs at h with hfree
      cases h
      exact ⟨not_not.2 hfree, by simp [Flags.tally, LockLevel.gain, hw]⟩
    · simp only [attempt, wrWrlock, if_neg hw] at h
      split_ifs at h with hfree
      cases h
      exact ⟨not_not.2 hfree, by simp [Flags.tally, LockLevel.gain, hw, sub_eq_add_neg]⟩

theorem attempt_refused (h : attempt level waitLock w f = .refused f') (hw : w = .fresh) : f'.tally = f.tally := by
  cases level with
  | noLock => cases h
  | readLock =>
    rw [attempt, wrRdlock] at h
    split_ifs at h
    cases h
    rfl
  | writeLock =>
    simp only [attempt, wrWrlock, if_pos hw] at h
    split_ifs at h
    cases h
    simp [Flags.tally]

theorem waitLock_of_refused (h : attempt level waitLock w f = .refused f') : waitLock = false := by
  cases level with
  | noLock => cases h
  | readLock =>
    rw [attempt, wrRdlock] at h
    split_ifs at h with _ hw
    simpa using hw
  | writeLock =>
    simp only [attempt, wrWrlock] at h
    generalize (if w = .fresh then _ else f) = g at h
    split_ifs at h with _ hw
    simpa using hw

theorem attempt_sleeps (h : attempt level waitLock w f = .sleeps f') :
    waitLock = true ∧ f'.Taken level ∧ f'.tally = f.tally + level.queue w := by
  cases level with
  | noLock => cases h
  | readLock =>
    rw [attempt, wrRdlock] at h
    split_ifs at h with hfree hw
    cases h
    exact ⟨hw, hfree, (add_zero _).symm⟩
  | writeLock =>
    by_cases hw : w = .fresh
    · simp only [attempt, wrWrlock, if_pos hw] at h
      split_ifs at h with hfree hwait
      cases h
      exact ⟨hwait, hfree, by simp [Flags.tally, LockLevel.queue, hw]⟩
    · simp only [attempt, wrWrlock, if_neg hw] at h
      split_ifs at h with hfree hwait
      cases h
      exact ⟨hwait, hfree, by simp [Flags.tally, LockLevel.queue, hw]⟩

end Attempt

/-! ## What a step does -/

/-- **A move of one thread**: from `pc` to `pc'`, with the counters `f` of `d` becoming `f'`, and with
    or without a broadcast. -/
inductive Moves (d : Datatype) (f : Flags) : Pc → Flags → Pc → Bool → Prop
  | call {waitLock : Bool} {levels : SlurmctldLock} :
    Moves d f .idle f (.locking waitLock levels [] order .fresh) false
  | giveBack {levels : SlurmctldLock} :
    Moves d f (.held levels) f (.unlocking false levels order.reverse) false
  | enter {waitLock : Bool} {levels : SlurmctldLock} {done : List Datatype} {w : Wait} :
    Moves d f (.locking waitLock levels done [] w) f (.held levels) false
  | got {waitLock : Bool} {levels : SlurmctldLock} {done todo : List Datatype} {w : Wait}
      {f' : Flags} (h : attempt (levels.level d) waitLock w f = .got f') :
    Moves d f (.locking waitLock levels done (d :: todo) w) f'
      (.locking waitLock levels (d :: done) todo .fresh) false
  | refused {waitLock : Bool} {levels : SlurmctldLock} {done todo : List Datatype} {w : Wait}
      {f' : Flags} (h : attempt (levels.level d) waitLock w f = .refused f') :
    Moves d f (.locking waitLock levels done (d :: todo) w) f' (.unlocking true levels done) false
  | sleeps {waitLock : Bool} {levels : SlurmctldLock} {done todo : List Datatype} {w : Wait}
      {f' : Flags} (h : attempt (levels.level d) waitLock w f = .sleeps f') :
    Moves d f (.locking waitLock levels done (d :: todo) w) f'
      (.locking waitLock levels done (d :: todo) .asleep) false
  | release {failed : Bool} {levels : SlurmctldLock} {todo : List Datatype} :
    Moves d f (.unlocking failed levels (d :: todo)) (release (levels.level d) f)
      (.unlocking failed levels todo) (decide (levels.level d ≠ .noLock))
  | leave {failed : Bool} {levels : SlurmctldLock} :
    Moves d f (.unlocking failed levels []) f .idle false
  | wake {pc : Pc} : Moves d f pc f pc.wake false

/-- Everybody is woken by a broadcast. -/
def Pc.hear (b : Bool) (pc : Pc) : Pc := if b then pc.wake else pc

section Step

variable {τ : Type*} [DecidableEq τ] {s s' : State τ} {t : τ} {e : Event τ}

structure After (s : State τ) (t : τ) (d : Datatype) (f : Flags) (pc : Pc) (b : Bool) (s' : State τ) : Prop where
  entity : s'.entity = Function.update s.entity d f
  thread : ∀ u, s'.thread u = (Function.update s.thread t pc u).hear b

theorem After.setThread (pc : Pc) : After s t .config (s.entity .config) pc false (s.setThread t pc) :=
  ⟨(Function.update_eq_self _ _).symm, fun _ => rfl⟩

theorem After.setEntity (d : Datatype) (f : Flags) (pc : Pc) :
    After s t d f pc false ((s.setEntity d f).setThread t pc) := ⟨rfl, fun _ => rfl⟩

theorem advance_moves (h : s.advance t = some s') :
    ∃ d f pc b, Moves d (s.entity d) (s.thread t) f pc b ∧ After s t d f pc b s' := by
  rw [State.advance] at h
  split at h
  · cases h
  · cases h
  next waitLock levels done w hpc =>
    cases h
    exact ⟨_, _, _, _, hpc ▸ .enter, .setThread _⟩
  · cases h
  next waitLock levels done d todo w hw hpc =>
    split at h
    next f hf =>
      cases h
      exact ⟨d, f, _, _, hpc ▸ .got hf, .setEntity _ _ _⟩
    next f hf =>
      cases h
      exact ⟨d, f, _, _, hpc ▸ .refused hf, .setEntity _ _ _⟩
    next f hf =>
      cases h
      exact ⟨d, f, _, _, hpc ▸ .sleeps hf, .setEntity _ _ _⟩
  next failed levels hpc =>
    cases h
    exact ⟨_, _, _, _, hpc ▸ .leave, .setThread _⟩
  next failed levels d todo hpc =>
    cases h
    refine ⟨d, _, _, _, by rw [hpc]; exact Moves.release, ?_⟩
    by_cases hno : levels.level d = .noLock
    · simp only [hno, ne_eq, not_true, decide_false, if_true]
      exact .setEntity _ _ _
    · simp only [hno, ne_eq, not_false_iff, decide_true, if_false]
      exact ⟨rfl, fun _ => rfl⟩

/-- **Every step is a move of its thread.** -/
theorem step_moves (h : locks.step s e = some s') :
    ∃ d f pc b, Moves d (s.entity d) (s.thread e.mover) f pc b ∧ After s e.mover d f pc b s' := by
  cases e with
  | lockSlurmctld t | tryLockSlurmctld t =>
    obtain ⟨hidle, h⟩ := Option.ite_none_right_eq_some.1 h
    cases h
    exact ⟨_, _, _, _, (hidle : s.thread t = .idle) ▸ .call, .setThread _⟩
  | unlockSlurmctld t =>
    simp only [locks] at h
    split at h
    next levels hpc =>
      cases h
      exact ⟨_, _, _, _, (hpc : s.thread t = _) ▸ .giveBack, .setThread _⟩
    · cases h
  | step t => exact advance_moves h
  | wakeUp t =>
    cases h
    exact ⟨_, _, _, _, .wake, .setThread _⟩

end Step

/-! ## One thread -/

section Local

variable {d d' : Datatype} {f f' : Flags} {pc pc' : Pc} {b : Bool}

@[simp] theorem passed_wake : pc.wake.passed = pc.passed := by
  unfold Pc.wake
  split <;> rfl

@[simp] theorem level_wake : pc.wake.level = pc.level := by
  unfold Pc.wake
  split <;> rfl

@[simp] theorem awaits_wake : pc.wake.awaits d ↔ pc.awaits d := by
  unfold Pc.wake
  split
  · rename_i todo
    cases todo <;> simp [Pc.awaits]
  · exact Iff.rfl

theorem awaits_level (h : pc.awaits d) : pc.level d = .writeLock := by
  unfold Pc.awaits at h
  split at h
  · exact h.2.1
  · cases h

variable {done todo : List Datatype} {levels : SlurmctldLock} {waitLock : Bool}

theorem not_awaits_fresh : ¬(Pc.locking waitLock levels done todo .fresh).awaits d := by
  cases todo <;> simp [Pc.awaits]

theorem share_eq : pc.share d =
    match pc.level d with
    | .noLock => (0, 0, 0)
    | .readLock => (if d ∈ pc.passed then 1 else 0, 0, 0)
    | .writeLock => (0, if d ∈ pc.passed then 1 else 0, if pc.awaits d then 1 else 0) := by
  have ha : pc.awaits d → pc.level d = .writeLock := awaits_level
  unfold Pc.share
  cases hl : pc.level d with
  | noLock =>
    rw [if_neg fun h => by simp [h.2] at hl, if_neg fun h => by simp [h.2] at hl,
      if_neg fun h => by simp [ha h] at hl]
  | readLock =>
    have hr : pc.reads d ↔ d ∈ pc.passed := and_iff_left hl
    have hw : ¬pc.writes d := fun h => by simp [h.2] at hl
    have ha : ¬pc.awaits d := fun h => by simp [ha h] at hl
    rw [if_congr hr rfl rfl, if_neg hw, if_neg ha]
  | writeLock =>
    have hw : pc.writes d ↔ d ∈ pc.passed := and_iff_left hl
    rw [if_neg fun h => by simp [h.2] at hl, if_congr hw rfl rfl]

theorem share_congr (hl : pc'.level d = pc.level d) (hp : d ∈ pc'.passed ↔ d ∈ pc.passed)
    (ha : pc'.awaits d ↔ pc.awaits d) : pc'.share d = pc.share d := by
  rw [share_eq, share_eq, hl, if_congr hp rfl rfl, if_congr ha rfl rfl]

theorem share_none (hp : d ∉ pc.passed) (ha : ¬pc.awaits d) : pc.share d = (0, 0, 0) := by
  rw [share_eq, if_neg hp, if_neg ha]
  cases pc.level d <;> rfl

theorem share_idle : Pc.idle.share d = 0 := share_none (by simp [Pc.passed]) id

theorem share_call : (Pc.locking waitLock levels [] order .fresh).share d = 0 :=
  share_none (by simp [Pc.passed]) not_awaits_fresh

theorem share_leave (failed : Bool) :
    (Pc.unlocking failed levels []).share d = 0 := share_none (by simp [Pc.passed]) id

theorem share_wake : pc.wake.share d = pc.share d :=
  share_congr (by rw [level_wake]) (by rw [passed_wake]) awaits_wake

theorem share_hear : (pc.hear b).share d = pc.share d := by
  cases b
  · rfl
  · exact share_wake

theorem Pc.Ordered.wake (h : pc.Ordered) : pc.wake.Ordered := by
  unfold Pc.wake
  split
  · exact ⟨h.1, fun _ => h.2 (by simp)⟩
  · exact h

theorem Pc.Ordered.hear (h : pc.Ordered) : (pc.hear b).Ordered := by
  cases b
  · exact h
  · exact h.wake

theorem Pc.Ordered.nodup (h : pc.Ordered) : pc.passed.Nodup := by
  cases pc with
  | idle => exact nodup_nil
  | locking waitLock levels done todo w =>
    have hn : (done.reverse ++ todo).Nodup := h.1 ▸ (by decide : order.Nodup)
    exact nodup_reverse.1 (nodup_append.1 hn).1
  | held levels => exact (by decide : order.Nodup)
  | unlocking failed levels todo =>
    exact nodup_reverse.1 ((by decide : order.Nodup).sublist (List.IsPrefix.sublist h))

theorem Pc.Ordered.notMem {w : Wait} (h : (Pc.locking waitLock levels done (d :: todo) w).Ordered) : d ∉ done := by
  have hn : (done.reverse ++ d :: todo).Nodup := h.1 ▸ (by decide : order.Nodup)
  exact fun hd => (nodup_append.1 hn).2.2 d (mem_reverse.2 hd) d mem_cons_self rfl

theorem Moves.ordered (h : Moves d f pc f' pc' b) (ho : pc.Ordered) : pc'.Ordered := by
  cases h with
  | call => exact ⟨rfl, fun hw => absurd rfl hw⟩
  | giveBack => exact (reverse_reverse order).symm ▸ prefix_refl _
  | enter | leave => trivial
  | got h =>
    refine ⟨?_, fun hw => absurd rfl hw⟩
    rw [reverse_cons, append_assoc]
    exact ho.1
  | refused h => exact ⟨_, ho.1⟩
  | @sleeps waitLock levels done todo w f' h =>
    refine ⟨ho.1, fun _ => ?_⟩
    exact (attempt_sleeps h).1
  | release =>
    rw [Pc.Ordered, reverse_cons] at ho
    exact (prefix_append _ _).trans ho
  | wake => exact ho.wake

theorem not_awaits_of_ne {w : Wait} (hd : d' ≠ d) : ¬(Pc.locking waitLock levels done (d :: todo) w).awaits d' :=
  fun h => hd h.1.symm

theorem Moves.share_of_ne (h : Moves d f pc f' pc' b) (ho : pc.Ordered) (hd : d' ≠ d) :
    pc'.share d' = pc.share d' := by
  cases h with
  | call => rw [share_idle, share_call]
  | giveBack => exact share_congr rfl mem_reverse Iff.rfl
  | @enter waitLock levels done w =>
    refine share_congr rfl ?_ Iff.rfl
    rw [Pc.passed, Pc.passed, ← ho.1, append_nil, mem_reverse]
  | got h =>
    refine share_congr rfl ?_ (iff_of_false not_awaits_fresh (not_awaits_of_ne hd))
    rw [Pc.passed, mem_cons, or_iff_right hd]
    rfl
  | refused h => exact share_congr rfl Iff.rfl (iff_of_false id (not_awaits_of_ne hd))
  | sleeps h => exact share_congr rfl Iff.rfl (iff_of_false (not_awaits_of_ne hd) (not_awaits_of_ne hd))
  | release =>
    refine share_congr rfl ?_ Iff.rfl
    rw [Pc.passed, Pc.passed, mem_cons, or_iff_right hd]
  | leave => rw [share_idle, share_leave]
  | wake => exact share_wake

theorem Pc.Ordered.fresh {waitLock : Bool} {levels : SlurmctldLock} {done todo : List Datatype} {w : Wait}
    (ho : (Pc.locking waitLock levels done (d :: todo) w).Ordered)
    (h : attempt (levels.level d) waitLock w f = .refused f') : w = .fresh := by
  by_contra hw
  have := ho.2 hw
  rw [waitLock_of_refused h] at this
  cases this

/-- **The counters of a data type change by what changes in the thread.** -/
theorem Moves.tally (h : Moves d f pc f' pc' b) (ho : pc.Ordered) :
    f'.tally + pc.share d = f.tally + pc'.share d := by
  cases h with
  | call => rw [share_idle, share_call]
  | @giveBack levels =>
    have hshare : (Pc.unlocking false levels order.reverse).share d = (Pc.held levels).share d :=
      share_congr rfl mem_reverse Iff.rfl
    rw [hshare]
  | @enter waitLock levels done w =>
    have hmem : d ∈ order ↔ d ∈ done := by rw [← ho.1, append_nil, mem_reverse]
    have hshare : (Pc.held levels).share d = (Pc.locking waitLock levels done [] w).share d :=
      share_congr rfl hmem Iff.rfl
    rw [hshare]
  | @got waitLock levels done todo w f' h =>
    have hold : d ∉ (Pc.locking waitLock levels done (d :: todo) w).passed := ho.notMem
    have hnew : d ∈ (Pc.locking waitLock levels (d :: done) todo .fresh).passed := mem_cons_self
    rw [(attempt_got h).2, share_eq, share_eq, if_neg hold, if_pos hnew, if_neg not_awaits_fresh,
      Pc.level, Pc.level, add_assoc]
    cases hl : levels.level d with
    | noLock => rfl
    | readLock => rfl
    | writeLock => by_cases hw : w = .fresh <;> simp [LockLevel.gain, Pc.awaits, hl, hw]
  | @refused waitLock levels done todo w f' h =>
    have hw := ho.fresh h
    have hshare : (Pc.unlocking true levels done).share d =
        (Pc.locking waitLock levels done (d :: todo) w).share d :=
      share_congr rfl Iff.rfl (iff_of_false id (hw ▸ not_awaits_fresh))
    rw [attempt_refused h hw, hshare]
  | @sleeps waitLock levels done todo w f' h =>
    have hd : d ∉ (Pc.locking waitLock levels done (d :: todo) w).passed := ho.notMem
    have hd' : d ∉ (Pc.locking waitLock levels done (d :: todo) .asleep).passed := ho.notMem
    rw [(attempt_sleeps h).2.2, share_eq, share_eq, if_neg hd, if_neg hd', Pc.level, Pc.level, add_assoc]
    cases hl : levels.level d with
    | noLock => rfl
    | readLock => rfl
    | writeLock => by_cases hw : w = .fresh <;> simp [LockLevel.queue, Pc.awaits, hl, hw]
  | @release failed levels todo =>
    have hold : d ∈ (Pc.unlocking failed levels (d :: todo)).passed := mem_cons_self
    have hnew : d ∉ (Pc.unlocking failed levels todo).passed := (nodup_cons.1 ho.nodup).1
    rw [share_eq, share_eq, if_pos hold, if_neg hnew, Pc.level, Pc.level]
    cases hl : levels.level d with
    | noLock => rfl
    | readLock => simp [Locks.release, wrRdunlock, Flags.tally]
    | writeLock => simp [Locks.release, wrWrunlock, Flags.tally, Pc.awaits]
  | leave => rw [share_idle, share_leave]
  | wake => rw [share_wake]

end Local

end Slurmpp.Locks
