/-
  The course of a job, from its line in the workload to its last thread.  `Stage` says, for one job, what its
  threads, its entries and its count can be together:

  * before    — nothing is started and nothing written;
  * alloc     — the launch thread is in `allocate_res`;
  * insert    — it has its record, and a first part of the entries is written;
  * launched  — all entries are written; AT MOST ONE handler is at work; "I am here" is found exactly if the handler's
                controller is the origin, "Finished" exactly if a handler elsewhere is done; and the job has been
                counted once by the side that has to count it, or not yet.

  A stage mentions no other job, so a turn that writes under none of its keys keeps it (`Stage.agrees`).
-/
import Slurmpp.Controller.Account

namespace Slurmpp.Controller

open List Function

open Text (words IsWord)
open Custody (Place)

variable {κ δ : Type*}

/-! ## Conditions -/

/-- The thread has written all its entries. -/
def Launch.isLaunched : Launch → Bool
  | .launching | .check | .waiting | .guard | .count | .ended => true
  | _ => false

/-- The thread has started nothing: before its turn, or out through an early exit. -/
def Launch.isBefore : Launch → Bool
  | .queued | .begun | .exited | .failed | .fault _ => true
  | _ => false

/-- The thread has not found "I am here" and has still to count its job. -/
def Launch.isAway : Launch → Bool
  | .waiting | .guard | .count => true
  | _ => false

/-- The thread has found "Finished" and has still to count its job. -/
def Launch.isTold : Launch → Bool
  | .guard | .count => true
  | _ => false

namespace Setup

variable (S : Setup κ δ)

def names : Set Text := {c | S.conf.IsCtrl c}

/-- **Sensible setups**: the origins are members, names can be told from ids and from the texts
    the code appends, ids are distinct, and every job is in its origin's workload once. -/
structure Sensible : Prop where
  ctrls : 0 < S.cluster.numCtrl
  named : ¬S.conf.IsCtrl []
  member : ∀ j, S.origin j ∈ S.cluster.memList
  names : ∀ c ∈ S.names, IsWord ',' c ∧ c ≠ ctrlsText ∧ c ≠ finText
  legible : Legible S.names (Set.range S.jobId)
  distinct : Function.Injective S.jobId
  nodup : ∀ c, (S.workload c).Nodup
  workload : ∀ c j, j ∈ S.workload c ↔ S.origin j = c

/-- **Tame turns.**  The launch threads file nodes in homely steps; a completion message comes once
    for a job, after its entries are written, and to the controller that stands lowest in the
    membership list among those whose nodes the job holds. -/
def Tame (s : System κ δ) : Turn κ δ → Prop
  | .thread j _ =>
    S.cluster.Steadies s.world.store (S.minNodes j) (s.world.proc (j, none)) ∧
      S.cluster.Opens (S.origin j) s.world.store (S.minNodes j) (s.world.proc (j, none))
  | .deliver j d =>
    (s.slip j).launch.isLaunched = true ∧ (∀ d', (s.slip j).handler d' = .awaited) ∧
      S.cluster.Lowest (s.world.held j) (S.ctrl j d)
  | _ => True

end Setup

/-! ## Stages -/

/-- The record sends the completion back to the controller `origin`. -/
def JobResource.Here (r : JobResource) (origin : Text) : Prop :=
  r.self = true ∧ origin ∈ r.ids

/-- How a handler stands to the record `r` its job has written, and what its thread does. -/
def Serves (K : Cluster) (origin : Text) (r : JobResource) : Handler → Proc → Prop
  | .awaited, q => q = .idle
  | .origin, q => q = .idle
  | .build o b, q => o = origin ∧ Reads K r b ∧ q = .idle
  | .release o, q => o = origin ∧ q.isRelease = true
  | .fin o, q => o = origin ∧ q = .released
  | .done, q => q = .released
  | .fault _, _ => False

/-- **A job whose record `r` is in the store.** -/
structure Launched (S : Setup κ δ) (j : κ) (st : Zht) (procs : Option δ → Proc) (a : Slip δ)
    (r : JobResource) : Prop where
  regular : r.Regular S.cluster S.names
  stored : Stored st (S.origin j) (S.jobId j) r
  here : st (S.hereKey j) = some hereText ↔ r.Here (S.origin j)
  fin : st (S.finKey j) = some finishedText ↔ ∃ d, a.handler d = .done ∧ S.ctrl j d ≠ S.origin j
  serves : ∀ d, Serves S.cluster (S.origin j) r (a.handler d) (procs (some d))
  once : ∀ d d', a.handler d ≠ .awaited → a.handler d' ≠ .awaited → d = d'
  home : ∀ d, a.handler d ≠ .awaited → (r.Here (S.origin j) ↔ S.ctrl j d = S.origin j)
  away : a.launch.isAway = true → ¬r.Here (S.origin j)
  told : a.launch.isTold = true → st (S.finKey j) = some finishedText
  stranger : ∀ c, c ≠ S.origin j → a.fins c = 0
  /-- the handler counts a job that comes back. -/
  back : r.Here (S.origin j) → ∀ d, a.handler d = .done → a.fins (S.origin j) = 1
  awaits : r.Here (S.origin j) → (∀ d, a.handler d ≠ .done) → a.fins (S.origin j) = 0
  /-- the launch thread counts the others. -/
  waits : ¬r.Here (S.origin j) → a.fins (S.origin j) = if a.launch = .ended then 1 else 0

/-- No message has come. -/
def Quiet (procs : Option δ → Proc) (a : Slip δ) : Prop :=
  ∀ d, a.handler d = .awaited ∧ procs (some d) = .idle

/-- **The stages of a job.** -/
inductive Stage (S : Setup κ δ) (j : κ) (st : Zht) (procs : Option δ → Proc) (a : Slip δ) : Prop
  | before (hl : a.launch.isBefore = true) (hp : procs none = .idle) (hq : Quiet procs a)
      (hst : Agrees S.names (S.jobId j) st fun _ => none) (hf : ∀ c, a.fins c = 0)
  | alloc (hl : a.launch = .alloc) (hp : (procs none).isAlloc = true) (hq : Quiet procs a)
      (hst : Agrees S.names (S.jobId j) st fun _ => none) (hf : ∀ c, a.fins c = 0)
  | insert (r : JobResource) (done todo : List (Text × Text)) (hl : a.launch = .insert todo)
      (hp : procs none = .holding r) (hq : Quiet procs a)
      (hd : insertJobinfoZht (S.origin j) (S.jobId j) r = done ++ todo)
      (hst : Agrees S.names (S.jobId j) st (Store.writes (fun _ => none) done))
      (hf : ∀ c, a.fins c = 0)
  | launched (r : JobResource) (hl : a.launch.isLaunched = true) (hp : procs none = .holding r)
      (hL : Launched S j st procs a r)

section Stages

variable {S : Setup κ δ} {j : κ} {st st' : Zht} {procs : Option δ → Proc} {a : Slip δ}
  {r : JobResource}

theorem Setup.origin_mem_names (S : Setup κ δ) (j : κ) : S.origin j ∈ S.names := .inr ⟨(j, none), rfl⟩

theorem Launched.agrees (h : Launched S j st procs a r)
    (hag : Agrees S.names (S.jobId j) st' st) : Launched S j st' procs a r := by
  have hself := S.origin_mem_names j
  have hfin : st' (S.finKey j) = st (S.finKey j) := hag _ (tail_append hself _)
  refine { h with stored := fun kv hkv => ?_, here := ?_, fin := ?_, told := ?_ }
  · obtain ⟨t, ht, hk⟩ := tail_of_mem_keys hself (mem_map_of_mem hkv)
    rw [hk, hag t ht, ← hk]
    exact h.stored kv hkv
  · rw [show st' (S.hereKey j) = st (S.hereKey j) from hag _ (tail_name hself)]
    exact h.here
  · rw [hfin]
    exact h.fin
  · rw [hfin]
    exact h.told

section

variable (h : Stage S j st procs a)
include h

theorem Stage.agrees (hag : Agrees S.names (S.jobId j) st' st) :
    Stage S j st' procs a := by
  cases h with
  | before hl hp hq hst hf => exact .before hl hp hq (fun t ht => (hag t ht).trans (hst t ht)) hf
  | alloc hl hp hq hst hf => exact .alloc hl hp hq (fun t ht => (hag t ht).trans (hst t ht)) hf
  | insert r done todo hl hp hq hd hst hf =>
    exact .insert r done todo hl hp hq hd (fun t ht => (hag t ht).trans (hst t ht)) hf
  | launched r hl hp hL => exact .launched r hl hp (hL.agrees hag)

/-! ### Reading the stage off the threads -/

theorem Stage.of_before (hl : a.launch.isBefore = true) :
    procs none = .idle ∧ Quiet procs a ∧ (Agrees S.names (S.jobId j) st fun _ => none) ∧ ∀ c, a.fins c = 0 := by
  cases h with
  | before hl hp hq hst hf => exact ⟨hp, hq, hst, hf⟩
  | alloc hl' hp hq hst hf =>
    rw [hl'] at hl
    cases hl
  | insert r done todo hl' hp hq hd hst hf =>
    rw [hl'] at hl
    simp [Launch.isBefore] at hl
  | launched r hl' hp hL => cases hpc : a.launch <;> simp_all [Launch.isBefore, Launch.isLaunched]

theorem Stage.of_alloc (hl : a.launch = .alloc) :
    (procs none).isAlloc = true ∧ Quiet procs a ∧
      (Agrees S.names (S.jobId j) st fun _ => none) ∧ ∀ c, a.fins c = 0 := by
  cases h with
  | alloc hl' hp hq hst hf => exact ⟨hp, hq, hst, hf⟩
  | _ => simp_all [Launch.isBefore, Launch.isLaunched]

theorem Stage.of_insert {todo : List (Text × Text)} (hl : a.launch = .insert todo) :
    ∃ r done, procs none = .holding r ∧ Quiet procs a ∧
      insertJobinfoZht (S.origin j) (S.jobId j) r = done ++ todo ∧
      Agrees S.names (S.jobId j) st (Store.writes (fun _ => none) done) ∧ ∀ c, a.fins c = 0 := by
  cases h with
  | insert r done todo' hl' hp hq hd hst hf =>
    obtain rfl : todo' = todo := Launch.insert.inj (hl'.symm.trans hl)
    exact ⟨r, done, hp, hq, hd, hst, hf⟩
  | _ => simp_all [Launch.isBefore, Launch.isLaunched]

theorem Stage.of_launched (hl : a.launch.isLaunched = true) :
    ∃ r, procs none = .holding r ∧ Launched S j st procs a r := by
  cases h with
  | launched r hl hp hL => exact ⟨r, hp, hL⟩
  | before hl' hp hq hst hf =>
    cases hpc : a.launch <;> simp_all [Launch.isBefore, Launch.isLaunched]
  | alloc | insert => simp_all [Launch.isLaunched]

theorem Stage.of_handler {d : δ} (hd : a.handler d ≠ .awaited) :
    a.launch.isLaunched = true ∧ ∃ r, procs none = .holding r ∧ Launched S j st procs a r := by
  cases h with
  | launched r hl hp hL => exact ⟨hl, r, hp, hL⟩
  | before _ _ hq | alloc _ _ hq | insert _ _ _ _ _ hq => exact absurd (hq d).1 hd

theorem Stage.fins_le (c : Text) :
    a.fins c + S.fails c j a ≤ if S.origin j = c then 1 else 0 := by
  have hzero : (∀ c, a.fins c = 0) → a.fins c + S.fails c j a ≤ if S.origin j = c then 1 else 0 := by
    intro hf
    rw [hf c, Setup.fails]
    split_ifs <;> simp_all
  cases h with
  | before _ _ _ _ hf | alloc _ _ _ _ hf | insert _ _ _ _ _ _ _ _ hf => exact hzero hf
  | launched r hl hp hL =>
    have hfail : S.fails c j a = 0 := by
      rw [Setup.fails, if_neg]
      rintro ⟨-, hf⟩
      rw [hf] at hl
      cases hl
    rw [hfail]
    by_cases hc : S.origin j = c
    · subst hc
      rw [if_pos rfl]
      by_cases hh : r.Here (S.origin j)
      · by_cases hd : ∃ d, a.handler d = .done
        · obtain ⟨d, hd⟩ := hd
          rw [hL.back hh d hd]
        · push Not at hd
          rw [hL.awaits hh hd]
          omega
      · rw [hL.waits hh]
        split_ifs <;> omega
    · rw [hL.stranger c (Ne.symm hc), if_neg hc]

end

/-! ### The launch thread goes on -/

theorem Launched.goTo (h : Launched S j st procs a r) {pc : Launch} (haway : pc.isAway = true → ¬r.Here (S.origin j))
    (htold : pc.isTold = true → st (S.finKey j) = some finishedText)
    (hend : ¬r.Here (S.origin j) → (pc = .ended ↔ a.launch = .ended)) :
    Launched S j st procs { a with launch := pc } r := by
  refine { h with away := haway, told := htold, waits := fun hh => ?_ }
  rw [h.waits hh]
  simp only [hend hh]

theorem Launched.count (h : Launched S j st procs a r) (hl : a.launch = .count) :
    Launched S j st procs ⟨.ended, a.handler, update a.fins (S.origin j) (a.fins (S.origin j) + 1)⟩ r := by
  have hnot : ¬r.Here (S.origin j) := h.away (by rw [hl]; rfl)
  refine { h with
    away := fun _ => hnot, told := fun _ => h.told (by rw [hl]; rfl), stranger := fun c hc => ?_,
    back := fun hh => absurd hh hnot, awaits := fun hh => absurd hh hnot, waits := fun _ => ?_ }
  · dsimp only
    rw [update_of_ne hc]
    exact h.stranger c hc
  · dsimp only
    rw [update_self, h.waits hnot, hl]
    rfl

/-! ### A handler goes on -/

theorem Launched.others {d : δ} (h : Launched S j st procs a r)
    (hold : a.handler d ≠ .awaited ∨ ∀ d', a.handler d' = .awaited) {d' : δ} (hne : d' ≠ d) :
    a.handler d' = .awaited := by
  rcases hold with hd | hd
  · by_contra hd'
    exact hne (h.once d' d hd' hd)
  · exact hd d'

theorem Setup.Sensible.finKey_ne (hS : S.Sensible) (hr : r.Regular S.cluster S.names) :
    ∀ kv ∈ insertJobinfoZht (S.origin j) (S.jobId j) r, kv.1 ≠ S.finKey j := by
  intro kv hkv he
  have hfin : finText ≠ [] := by decide
  rw [insertJobinfoZht, mem_cons, mem_append, mem_cons, mem_map] at hkv
  rcases hkv with rfl | hkv | rfl | ⟨i, hi, rfl⟩
  · have hnil := jobKey_inj.1 he
    exact hfin (append_eq_nil_iff.1 hnil.symm).2
  · split_ifs at hkv
    · obtain rfl := mem_singleton.1 hkv
      exact hfin (self_eq_append_right.1 (jobKey_inj.1 he))
    · simp at hkv
  · have := append_cancel_left (jobKey_inj.1 he)
    cases this
  · have hname := hr.names _ (hr.mem_ids (mem_range.1 hi))
    exact (hS.names _ hname).2.2 (append_cancel_left (jobKey_inj.1 he))

variable [DecidableEq δ] {d : δ} {q : Proc} {pc : Handler}

section Serve

variable (h : Launched S j st procs a r) (hold : a.handler d ≠ .awaited ∨ ∀ d', a.handler d' = .awaited)
  (hhome : r.Here (S.origin j) ↔ S.ctrl j d = S.origin j)
include h hold hhome

theorem Launched.handOver (pc : Handler) (hs : Serves S.cluster (S.origin j) r pc q) :
    (∀ d', Serves S.cluster (S.origin j) r (update a.handler d pc d')
      (update procs (some d) q (some d'))) ∧
    (∀ d1 d2, update a.handler d pc d1 ≠ .awaited →
      update a.handler d pc d2 ≠ .awaited → d1 = d2) ∧
    ∀ d', update a.handler d pc d' ≠ .awaited → (r.Here (S.origin j) ↔ S.ctrl j d' = S.origin j) := by
  have hwho : ∀ d', update a.handler d pc d' ≠ .awaited → d' = d := by
    intro d' hd'
    by_contra hne
    rw [update_of_ne hne] at hd'
    exact hd' (h.others hold hne)
  refine ⟨fun d' => ?_, fun d1 d2 h1 h2 => ?_, fun d' hd' => ?_⟩
  · by_cases hd : d' = d
    · subst hd
      rw [update_self, update_self]
      exact hs
    · have hd' : some d' ≠ some d := fun he => hd (Option.some.inj he)
      rw [update_of_ne hd, update_of_ne hd']
      exact h.serves d'
  · rw [hwho d1 h1, hwho d2 h2]
  · obtain rfl := hwho d' hd'
    exact hhome

theorem Launched.serve (hdone : pc ≠ .done) (hnot : a.handler d ≠ .done) (hs : Serves S.cluster (S.origin j) r pc q) :
    Launched S j st (update procs (some d) q) { a with handler := update a.handler d pc } r := by
  obtain ⟨hserves, honce, hhomes⟩ := h.handOver hold hhome pc hs
  have hdone' : ∀ d', update a.handler d pc d' = .done ↔ a.handler d' = .done := by
    intro d'
    by_cases hd : d' = d
    · subst hd
      rw [update_self]
      exact iff_of_false hdone hnot
    · rw [update_of_ne hd]
  refine { h with
    fin := ?_, serves := hserves, once := honce, home := hhomes, back := fun hh d' hd' => ?_, awaits := fun hh hd' => ?_ }
  · rw [h.fin]
    simp only [hdone']
  · exact h.back hh d' ((hdone' d').1 hd')
  · exact h.awaits hh fun d' hd => hd' d' ((hdone' d').2 hd)

theorem Launched.serveStill (hdone : pc ≠ .done) (hnot : a.handler d ≠ .done)
    (hs : Serves S.cluster (S.origin j) r pc (procs (some d))) :
    Launched S j st procs { a with handler := update a.handler d pc } r := by
  have hL := h.serve hold hhome hdone hnot hs
  rwa [update_eq_self] at hL

end Serve

theorem Launched.finish (h : Launched S j st procs a r) (hd : a.handler d = .fin (S.ctrl j d)) :
    Launched S j st procs ⟨a.launch, update a.handler d .done,
      update a.fins (S.ctrl j d) (a.fins (S.ctrl j d) + 1)⟩ r := by
  have hnot : a.handler d ≠ .awaited := by
    rw [hd]
    simp
  have hserve := h.serves d
  rw [hd] at hserve
  obtain ⟨ho, hrel⟩ := hserve
  have hhere : r.Here (S.origin j) := (h.home d hnot).2 ho
  obtain ⟨hserves, honce, hhomes⟩ := h.handOver (.inl hnot) (h.home d hnot) .done hrel
  rw [update_eq_self] at hserves
  -- before this turn no handler was done
  have hnone : ∀ d', a.handler d' ≠ .done := by
    intro d' hd'
    obtain rfl := h.once d' d (by rw [hd']; simp) hnot
    rw [hd] at hd'
    cases hd'
  rw [ho]
  refine { h with
    fin := ?_, serves := hserves, once := honce, home := hhomes, stranger := fun c hc => ?_,
    back := fun _ d' hd' => ?_, awaits := fun _ hd' => ?_, waits := fun hh => absurd hhere hh }
  · rw [h.fin]
    refine iff_of_false (fun ⟨d', hd', _⟩ => hnone d' hd') ?_
    rintro ⟨d', hd', hne⟩
    dsimp only at hd'
    exact hne ((hhomes d' (by rw [hd']; simp)).1 hhere)
  · dsimp only
    rw [update_of_ne hc]
    exact h.stranger c hc
  · dsimp only
    rw [update_self, h.awaits hhere hnone]
  · exact absurd (update_self d .done a.handler) (hd' d)

theorem Launched.leave (hS : S.Sensible) (h : Launched S j st procs a r)
    (hd : a.handler d = .fin (S.origin j)) (hne : S.ctrl j d ≠ S.origin j) :
    Launched S j (st.insert (S.finKey j) finishedText) procs { a with handler := update a.handler d .done } r := by
  have hnot : a.handler d ≠ .awaited := by
    rw [hd]
    simp
  have hserve := h.serves d
  rw [hd] at hserve
  have haway : ¬r.Here (S.origin j) := fun hh => hne ((h.home d hnot).1 hh)
  obtain ⟨hserves, honce, hhomes⟩ :=
    h.handOver (.inl hnot) (h.home d hnot) .done hserve.2
  rw [update_eq_self] at hserves
  refine ⟨h.regular, fun kv hkv => ?_, ?_, ?_, hserves, honce, hhomes, h.away,
    fun _ => Store.insert_self _ _ _, h.stranger, fun hh => absurd hh haway,
    fun hh => absurd hh haway, h.waits⟩
  · rw [Store.insert_of_ne (hS.finKey_ne h.regular kv hkv)]
    exact h.stored kv hkv
  · have hkey : S.hereKey j ≠ S.finKey j := fun he =>
      absurd (self_eq_append_right.1 (jobKey_inj.1 he)) (by decide)
    rw [Store.insert_of_ne hkey]
    exact h.here
  · rw [Store.insert_self]
    exact iff_of_true rfl ⟨d, update_self d .done a.handler, hne⟩

end Stages

end Slurmpp.Controller
