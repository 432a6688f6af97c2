/-
  The retries of the agent (`src/slurmctld/agent.c`).

  An agent sends one RPC to the hosts of its request in groups, one thread for each group.  When no thread is at work any
  more, the watchdog counts what did not respond, and a new request for it is queued.

  1. **The agent** — `makeAgentInfo` makes the groups, `wdog` counts, `queueAgentRetry` collects the hosts.

  2. **Retries** — the hosts collected are the ones that did not respond.  But a group without a reply list counts as one,
     whatever number of hosts it has: the request is accepted by `_valid_agent_arg` exactly if each such group has one
     host (`failed_rpcs_retried_iff`, `forwarded_group_dropped`).
-/
import Slurmpp.Common.MsgTree

namespace Slurmpp.Agent

open List MsgTree Option

/-! ## The agent -/

/-- `state_t` -/
inductive State
  | new | active | done | noResp | failed
deriving DecidableEq

/-- The message types that `agent.c` treats in a way of their own; `other` stands for the rest. -/
inductive MsgType
  | requestJobNotify | requestRebootNodes | requestReconfigure | requestShutdown
  | srunExec | srunTimeout | srunNodeFail | srunRequestSuspend | srunUserMsg | srunStepMissing | srunStepSignal
  | srunJobComplete | srunPing | responseResourceAllocation
  | other (code : BitVec 16)
deriving DecidableEq

/-- `ret_data_info_t`: the node and what became of the RPC there. -/
structure RetDataInfo (α : Type) where
  nodeName : α
  err : State

/-- `thd_t`.  The text `nodelist` stands for the hosts in it. -/
structure Thd (α : Type) where
  state : State
  nodelist : List α
  retList : Option (List (RetDataInfo α))

/-- `agent_arg_t`; `addr` says if there is a specific address to send to. -/
structure AgentArg (α : Type) where
  nodeCount : Nat
  retry : Bool
  hostlist : List α
  addr : Bool
  msgType : MsgType

variable {α : Type}

def validAgentArg (arg : AgentArg α) : Bool := arg.nodeCount ≠ 0 && arg.nodeCount = arg.hostlist.length

/-- The message goes to one node, or is to be processed as soon as possible: no forwarding. -/
def sentDirectly : MsgType → Bool
  | .srunPing | .responseResourceAllocation | .other _ => false
  | _ => true

/-- `srun_agent` in `_wdog`. -/
def srunAgent : MsgType → Bool
  | .requestJobNotify | .requestRebootNodes | .requestReconfigure | .requestShutdown | .other _ => false
  | _ => true

/-- The loop of `_make_agent_info`; `relist` is what `hostlist_uniq` and the text make of the hosts of a group.  A read
    behind the end of `span` is a fault, as is the end of the fuel. -/
def groupLoop (relist : List α → List α) (arg : AgentArg α) (span : List Nat) :
    Nat → Nat → Nat → List α → Option (List (List α))
  | 0, _, _, _ => none
  | fuel + 1, thr, i, hosts =>
    if i < arg.nodeCount then
      match hosts with
      | [] => some []
      | name :: hosts => (span[thr]?).bind fun len =>
        let len := if arg.addr then 0 else len
        (groupLoop relist arg span fuel (thr + 1) (i + 1 + (hosts.take len).length) (hosts.drop len)).map
          (relist (name :: hosts.take len) :: ·)
    else some []

/-- `_make_agent_info`: the hosts of each thread. -/
def makeAgentInfo (relist : List α → List α) (arg : AgentArg α) : Option (List (List α)) :=
  (setSpan arg.nodeCount (if sentDirectly arg.msgType then arg.nodeCount else 1)).bind fun span =>
    groupLoop relist arg span (arg.hostlist.length + 1) 0 0 arg.hostlist

structure ThdComplete where
  workDone : Bool
  failCnt : Nat
  noRespCnt : Nat
  retryCnt : Nat

/-- `_update_wdog_state` but for the time limit, which is for threads at work. -/
def updateWdogState (c : ThdComplete) : State → ThdComplete
  | .active | .new => { c with workDone := false }
  | .done => c
  | .noResp => { c with noRespCnt := c.noRespCnt + 1, retryCnt := c.retryCnt + 1 }
  | .failed => { c with failCnt := c.failCnt + 1 }

/-- The states the watchdog looks at. -/
def Thd.states (t : Thd α) : List State := (t.retList.map fun r => r.map (·.err)).getD [t.state]

/-- One round of `_wdog`; `none` says that there is one more. -/
def wdog (threads : List (Thd α)) : Option ThdComplete :=
  let c := (threads.flatMap Thd.states).foldl updateWdogState ⟨true, 0, 0, 0⟩
  if c.workDone then some c else none

/-- `_setup_requeue`: the hosts, the number of them, and if this is all. -/
def setupRequeue (count : Nat) : List (RetDataInfo α) → Nat → List α → Nat × List α × Bool
  | [], j, hl => (j, hl, false)
  | info :: infos, j, hl =>
    if info.err ≠ .noResp then setupRequeue count infos j hl
    else if j + 1 = count then (j + 1, hl ++ [info.nodeName], true)
    else setupRequeue count infos (j + 1) (hl ++ [info.nodeName])

/-- The loop of `_queue_agent_retry`. -/
def requeueLoop (count : Nat) : List (Thd α) → Nat → List α → Nat × List α
  | [], j, hl => (j, hl)
  | t :: threads, j, hl =>
    match t.retList with
    | none =>
      if t.state ≠ .noResp then requeueLoop count threads j hl
      else if j + 1 = count then (j + 1, hl ++ t.nodelist)
      else requeueLoop count threads (j + 1) (hl ++ t.nodelist)
    | some infos =>
      match setupRequeue count infos j hl with
      | (j, hl, true) => (j, hl)
      | (j, hl, false) => requeueLoop count threads j hl

/-- `_queue_agent_retry`: the request that is queued. -/
def queueAgentRetry (msgType : MsgType) (threads : List (Thd α)) (count : Nat) : Option (AgentArg α) :=
  if count = 0 then none
  else
    let (j, hl) := requeueLoop count threads 0 []
    some ⟨if count ≠ j then j else count, true, hl, false, msgType⟩

/-- What `_wdog` queues at its end, through `_notify_slurmctld_nodes`; `_notify_slurmctld_jobs` queues nothing. -/
def queued (arg : AgentArg α) (threads : List (Thd α)) (c : ThdComplete) : Option (AgentArg α) :=
  if srunAgent arg.msgType then none
  else if c.retryCnt ≠ 0 ∧ arg.retry then queueAgentRetry arg.msgType threads c.retryCnt else none

/-! ## Retries -/

/-- The thread is through: with replies of all its hosts, or with no reply list. -/
structure Thd.Through (t : Thd α) : Prop where
  final : ∀ s ∈ t.states, s ≠ .new ∧ s ≠ .active
  replies : ∀ r, t.retList = some r → (r.map (·.nodeName)).Perm t.nodelist

/-- What is counted and collected of a thread: its hosts at once if there is no reply list, else one by one. -/
def Thd.units (t : Thd α) : List (List α) :=
  match t.retList with
  | none => if t.state = .noResp then [t.nodelist] else []
  | some r => (r.filter (·.err = .noResp)).map ([·.nodeName])

def missing (threads : List (Thd α)) : List α := (threads.flatMap Thd.units).flatten

variable {relist : List α → List α} {arg : AgentArg α} {threads : List (Thd α)} {groups : List (List α)} {t : Thd α}
  {count j : Nat} {hl : List α}

theorem foldl_updateWdogState {states : List State} (c : ThdComplete) (h : ∀ s ∈ states, s ≠ .new ∧ s ≠ .active) :
    (states.foldl updateWdogState c).workDone = c.workDone ∧
      (states.foldl updateWdogState c).retryCnt = c.retryCnt + states.count .noResp := by
  induction states generalizing c with
  | nil => exact ⟨rfl, rfl⟩
  | cons s states ih =>
    obtain ⟨hdone, hcnt⟩ := ih (updateWdogState c s) (forall_mem_cons.1 h).2
    obtain ⟨hnew, hactive⟩ := h s mem_cons_self
    rw [foldl_cons, hdone, hcnt]
    cases s with
    | new => exact absurd rfl hnew
    | active => exact absurd rfl hactive
    | noResp => exact ⟨rfl, by simp [updateWdogState]; omega⟩
    | done | failed => exact ⟨rfl, by simp [updateWdogState]⟩

theorem count_states : t.states.count .noResp = t.units.length := by
  unfold Thd.states Thd.units
  cases t.retList with
  | none => by_cases hs : t.state = .noResp <;> simp [hs]
  | some r =>
    rw [map_some, getD_some, length_map, ← countP_eq_length_filter, List.count, countP_map]
    exact countP_congr fun x _ => by simp

/-- **The watchdog** comes to its end, and has counted the units. -/
theorem wdog_eq (h : ∀ t ∈ threads, t.Through) : ∃ c, wdog threads = some c ∧
    c.retryCnt = (threads.flatMap Thd.units).length := by
  obtain ⟨hdone, hcnt⟩ := foldl_updateWdogState ⟨true, 0, 0, 0⟩ fun s hs => by
    obtain ⟨t, ht, hs⟩ := mem_flatMap.1 hs
    exact (h t ht).final s hs
  refine ⟨_, if_pos hdone, ?_⟩
  rw [hcnt, Nat.zero_add, count_flatMap, length_flatMap]
  exact congrArg sum (map_congr_left fun t _ => count_states)

theorem setupRequeue_eq {infos : List (RetDataInfo α)} {units : List (List α)}
    (hunits : (infos.filter (·.err = .noResp)).map ([·.nodeName]) = units) (hj : j < count)
    (hle : j + units.length ≤ count) :
    setupRequeue count infos j hl = (j + units.length, hl ++ units.flatten, decide (j + units.length = count)) := by
  fun_induction setupRequeue generalizing units with
  | case1 j hl =>
    subst hunits
    simp [hj.ne]
  | case2 info infos j hl herr ih =>
    rw [filter_cons, if_neg (by simpa using herr)] at hunits
    exact ih hunits hj hle
  | case3 info infos j hl herr hlast =>
    rw [filter_cons, if_pos (by simpa using herr), map_cons] at hunits
    obtain ⟨units, rfl⟩ : ∃ us, units = [info.nodeName] :: us := ⟨_, hunits.symm⟩
    rw [length_cons] at hle
    obtain rfl : units = [] := length_eq_zero_iff.1 (by omega)
    simp [hlast]
  | case4 info infos j hl herr hlast ih =>
    rw [filter_cons, if_pos (by simpa using herr), map_cons] at hunits
    subst hunits
    rw [length_cons] at hle
    rw [ih rfl (by omega) (by omega), flatten_cons, append_assoc, length_cons, Nat.add_assoc, Nat.add_comm 1]

/-- **The loop**: it collects all units before the count is reached. -/
theorem requeueLoop_eq (hj : j < count) (hlen : j + (threads.flatMap Thd.units).length = count) :
    requeueLoop count threads j hl = (count, hl ++ missing threads) := by
  unfold missing
  induction threads generalizing j hl with
  | nil =>
    rw [flatMap_nil, length_nil] at hlen
    omega
  | cons t threads ih =>
    rw [flatMap_cons, length_append] at hlen
    rw [flatMap_cons, flatten_append, ← append_assoc, requeueLoop]
    -- where the count is reached, nothing is left
    have hrest : j + t.units.length = count → threads.flatMap Thd.units = [] := fun hlast =>
      length_eq_zero_iff.1 (by omega)
    cases hr : t.retList with
    | none =>
      have hunits : t.units = if t.state = .noResp then [t.nodelist] else [] := by simp [Thd.units, hr]
      split at hunits
      next hs =>
        rw [hunits] at hlen hrest ⊢
        rw [if_neg (not_not.2 hs)]
        split_ifs with hlast
        · simp [hrest hlast, hlast]
        · rw [ih (by omega) (by simpa [Nat.add_assoc] using hlen)]
          simp
      next hs =>
        rw [hunits] at hlen ⊢
        rw [if_pos hs, ih hj (by simpa using hlen)]
        simp
    | some infos =>
      have hunits : t.units = (infos.filter (·.err = .noResp)).map ([·.nodeName]) := by simp [Thd.units, hr]
      dsimp only
      rw [setupRequeue_eq hunits.symm hj (by omega)]
      by_cases hlast : j + t.units.length = count
      · rw [decide_eq_true hlast, hrest hlast]
        simp [hlast]
      · rw [decide_eq_false hlast]
        exact ih (by omega) (by omega)

theorem groupLoop_spec {span : List Nat} {fuel thr i : Nat} {hosts : List α} (hlist : ∀ hl : List α, hl.Nodup → relist hl ~ hl)
    (hlen : i + hosts.length = arg.nodeCount) (hnd : hosts.Nodup)
    (h : groupLoop relist arg span fuel thr i hosts = some groups) : [] ∉ groups ∧ groups.flatten ~ hosts := by
  fun_induction groupLoop generalizing groups with
  | case1 => cases h
  | case2 fuel thr i hi =>
    rw [length_nil] at hlen
    omega
  | case3 fuel thr i hi name hosts ih =>
    obtain ⟨len, -, h⟩ := bind_eq_some_iff.1 h
    obtain ⟨rest, hrest, hgroups⟩ := map_eq_some_iff.1 h
    have ih := @ih len
    generalize (if arg.addr = true then 0 else len) = k at hrest hgroups ih
    subst hgroups
    have hcut : name :: hosts = (name :: hosts.take k) ++ hosts.drop k := by simp
    have hperm := hlist (name :: hosts.take k) ((hcut ▸ hnd).of_append_left)
    obtain ⟨hne, hflat⟩ := ih (by simp at hlen ⊢; omega) ((hcut ▸ hnd).of_append_right) hrest
    refine ⟨fun hmem => ?_, ?_⟩
    · obtain hnil | hmem := mem_cons.1 hmem
      · rw [← hnil] at hperm
        cases hperm.nil_eq
      · exact hne hmem
    · rw [flatten_cons, hcut]
      exact hperm.append hflat
  | case4 fuel thr i hosts hi =>
    cases h
    have hzero : hosts = [] := length_eq_zero_iff.1 (by omega)
    exact ⟨not_mem_nil, hzero ▸ .refl _⟩

theorem units_subperm (h : t.Through) : t.units.flatten <+~ t.nodelist := by
  unfold Thd.units
  cases hr : t.retList with
  | none =>
    split_ifs
    · rw [flatten_singleton]
    · exact nil_subperm
  | some infos =>
    have hflat : ((infos.filter (·.err = .noResp)).map ([·.nodeName])).flatten =
        (infos.filter (·.err = .noResp)).map (·.nodeName) := by
      rw [← flatMap_def, map_eq_flatMap]
    rw [hflat]
    exact (filter_sublist.map _).subperm.trans (h.replies infos hr).subperm

theorem missing_subperm (h : ∀ t ∈ threads, t.Through) : missing threads <+~ threads.flatMap Thd.nodelist := by
  unfold missing
  induction threads with
  | nil => exact .refl _
  | cons t threads ih =>
    rw [flatMap_cons, flatMap_cons, flatten_append]
    exact (units_subperm (h t mem_cons_self)).append (ih (forall_mem_cons.1 h).2)

theorem length_le_flatten {l : List (List α)} (h : [] ∉ l) :
    l.length ≤ l.flatten.length ∧ (l.length = l.flatten.length ↔ ∀ g ∈ l, g.length = 1) := by
  induction l with
  | nil => simp
  | cons g l ih =>
    obtain ⟨hg, hl⟩ := not_or.1 (mem_cons.not.1 h)
    obtain ⟨hle, hiff⟩ := ih hl
    have hpos : 0 < g.length := length_pos_iff.2 fun h0 => hg h0.symm
    rw [length_cons, flatten_cons, length_append, forall_mem_cons, ← hiff]
    omega

theorem forall_units_iff : (∀ g ∈ t.units, g.length = 1) ↔
    (t.retList = none → t.state = .noResp → t.nodelist.length = 1) := by
  unfold Thd.units
  cases t.retList with
  | none => by_cases hs : t.state = .noResp <;> simp [hs]
  | some infos => exact iff_of_true (forall_mem_map.2 fun _ _ => rfl) nofun

theorem nil_not_mem_units (hne : t.nodelist ≠ []) : [] ∉ t.units := by
  unfold Thd.units
  cases t.retList with
  | none => by_cases hs : t.state = .noResp <;> simp [hs, hne.symm]
  | some infos => simp

/-- What the retry has to be: a request for the hosts that did not respond, each once and with their number, or none if
    all responded. -/
def Retried (threads : List (Thd α)) : Option (AgentArg α) → Prop
  | none => missing threads = []
  | some arg => missing threads ≠ [] ∧ arg.hostlist = missing threads ∧ arg.hostlist.Nodup ∧ arg.nodeCount = arg.hostlist.length ∧
    validAgentArg arg = true

/-- **Failed RPCs are retried** to the hosts that did not respond exactly if the request is not one to an `srun`, and every
    group without a reply list has one host. -/
theorem failed_rpcs_retried_iff (hlist : ∀ hl : List α, hl.Nodup → relist hl ~ hl) (hvalid : validAgentArg arg = true)
    (hnd : arg.hostlist.Nodup) (hretry : arg.retry = true) (hgroups : makeAgentInfo relist arg = some groups)
    (hthreads : threads.map Thd.nodelist = groups) (hthrough : ∀ t ∈ threads, t.Through) :
    ∃ c, wdog threads = some c ∧ (Retried threads (queued arg threads c) ↔
      (srunAgent arg.msgType = true → missing threads = []) ∧
      ∀ t ∈ threads, t.retList = none → t.state = .noResp → t.nodelist.length = 1) := by
  obtain ⟨c, hc, hcnt⟩ := wdog_eq hthrough
  obtain ⟨span, -, hloop⟩ := bind_eq_some_iff.1 hgroups
  have hlen : 0 + arg.hostlist.length = arg.nodeCount := by simp [validAgentArg] at hvalid; omega
  obtain ⟨hne, hflat⟩ := groupLoop_spec hlist hlen hnd hloop
  subst hthreads
  obtain ⟨l, hl, hsub⟩ := missing_subperm hthrough
  have hmiss : (missing threads).Nodup := hl.nodup_iff.1 (hsub.nodup (hflat.nodup_iff.2 hnd))
  have hunits : [] ∉ threads.flatMap Thd.units := fun hmem => by
    obtain ⟨t, ht, hmem⟩ := mem_flatMap.1 hmem
    exact nil_not_mem_units (fun h0 => hne (mem_map.2 ⟨t, ht, h0⟩)) hmem
  obtain ⟨hle, hiff⟩ := length_le_flatten hunits
  simp only [forall_mem_flatMap, forall_units_iff] at hiff
  refine ⟨c, hc, ?_⟩
  unfold queued
  by_cases hempty : missing threads = []
  · have hlen : (threads.flatMap Thd.units).flatten.length = 0 := by rw [← missing, hempty, length_nil]
    have hzero : c.retryCnt = 0 := by omega
    rw [if_neg fun h : c.retryCnt ≠ 0 ∧ _ => h.1 hzero, ite_self]
    exact iff_of_true hempty ⟨fun _ => hempty, hiff.1 (by omega)⟩
  have hpos : c.retryCnt ≠ 0 := fun h0 => hempty (by rw [missing, length_eq_zero_iff.1 (hcnt.symm.trans h0)]; rfl)
  cases hsrun : srunAgent arg.msgType with
  | true =>
    rw [if_pos rfl]
    exact iff_of_false hempty fun h => hempty (h.1 rfl)
  | false =>
    rw [if_neg Bool.false_ne_true, if_pos ⟨hpos, hretry⟩, queueAgentRetry, if_neg hpos,
      requeueLoop_eq (Nat.pos_of_ne_zero hpos) (by rw [Nat.zero_add, hcnt]), nil_append, ← hiff, ← hcnt]
    dsimp only
    rw [if_neg (not_not.2 rfl)]
    refine ⟨fun h => ⟨nofun, h.2.2.2.1⟩, fun ⟨_, hlen⟩ => ⟨hempty, rfl, hmiss, hlen, ?_⟩⟩
    rw [validAgentArg, Bool.and_eq_true, decide_eq_true_eq, decide_eq_true_eq]
    exact ⟨hpos, hlen⟩

/-- Two hosts to which a message is sent directly: one did not respond, the other one failed. -/
theorem failed_rpcs_retried_two :
    let threads : List (Thd Nat) := [⟨.noResp, [1], none⟩, ⟨.done, [2], some [⟨2, .failed⟩]⟩]
    ∃ c, wdog threads = some c ∧ missing threads = [1] ∧ Retried threads (queued ⟨2, true, [1, 2], false, .requestShutdown⟩ threads c) := by
  intro threads
  have hthrough : ∀ t ∈ threads, t.Through := by
    intro t ht
    simp only [threads, mem_cons, not_mem_nil, or_false] at ht
    obtain rfl | rfl := ht
    · exact ⟨by decide, nofun⟩
    · exact ⟨by decide, fun r hr => some.inj hr ▸ .refl _⟩
  obtain ⟨c, hc, hiff⟩ := @failed_rpcs_retried_iff _ id ⟨2, true, [1, 2], false, .requestShutdown⟩ _ _
    (fun _ _ => .refl _) rfl (by decide) rfl rfl rfl hthrough
  exact ⟨c, hc, rfl, hiff.2 ⟨nofun, by decide⟩⟩

/-- Three hosts to which a message is forwarded in one group: the request for them has a count of one, and is dropped. -/
theorem forwarded_group_dropped :
    let threads : List (Thd Nat) := [⟨.noResp, [1, 2, 3], none⟩]
    makeAgentInfo id ⟨3, true, [1, 2, 3], false, .other 6004⟩ = some (threads.map Thd.nodelist) ∧
    ∃ c arg, wdog threads = some c ∧ queued ⟨3, true, [1, 2, 3], false, .other 6004⟩ threads c = some arg ∧
      arg.hostlist = [1, 2, 3] ∧ arg.nodeCount = 1 ∧ validAgentArg arg = false :=
  ⟨rfl, _, _, rfl, rfl, rfl, rfl, rfl⟩

end Slurmpp.Agent
