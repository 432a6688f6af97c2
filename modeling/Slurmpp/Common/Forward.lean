/-
  One turn of a forwarding thread (`_forward_thread` and `_fwd_tree_thread` of `src/common/forward.c`, with
  `slurm_receive_msgs` and `slurm_send_addr_recv_msgs` of `src/common/slurm_protocol_api.c`).

  A thread shifts a host off its list, contacts it and asks it to forward the message to the others.  The turn
  ends with records for the return list and the hosts that are left for the next turn:

      records of the turn  +  hosts left  =  the host  +  the others            (`Phase.Settles`)

  Both functions compare the number of records with the 16 bits of `forward.cnt`; so the law holds for lists whose
  length these can hold (`forwardTurn_settles`, `treeTurn_settles`), and for no others (`treeTurn_settles_iff`).
-/
import Mathlib

namespace Slurmpp.Forward

open List

variable {α : Type}

/-! ## Records -/

/-- The error codes that a record can carry (`slurm_errno.h`; `other` for those of the system). -/
inductive Errno
  | success
  | connectionError
  | receiveError
  | versionError
  | authenticationError
  | unknownForwardAddr
  | incompletePacket
  | other (n : Nat)
deriving DecidableEq

/-- Message types, as far as they are told apart here. -/
inductive MsgType
  | unset
  | requestShutdown
  | requestReconfigure
  | requestRebootNodes
  | responseForwardFailed
  | other (n : Nat)
deriving DecidableEq

/-- `ret_data_info_t`; the name of the host that was contacted is `NULL` at first. -/
structure RetDataInfo (α : Type) where
  nodeName : Option α
  type : MsgType
  err : Errno
deriving DecidableEq

/-- The record that `mark_as_failed_forward` pushes. -/
def markAsFailedForward (name : α) (err : Errno) : RetDataInfo α :=
  ⟨some name, .responseForwardFailed, err⟩

/-- A fresh record with a name, and nothing else in it. -/
def freshRecord (name : α) : RetDataInfo α := ⟨some name, .unset, .success⟩

/-- `if (!ret_data_info->node_name) ret_data_info->node_name = xstrdup(name)` -/
def RetDataInfo.named (name : α) (r : RetDataInfo α) : RetDataInfo α :=
  { r with nodeName := some (r.nodeName.getD name) }

/-- The hosts that records are for. -/
def names (l : List (RetDataInfo α)) : Multiset (Option α) := l.map RetDataInfo.nodeName

def hosts (hl : List α) : Multiset (Option α) := hl.map some

@[simp] theorem names_nil : names ([] : List (RetDataInfo α)) = 0 := rfl

@[simp] theorem names_cons (r : RetDataInfo α) (l : List (RetDataInfo α)) :
    names (r :: l) = r.nodeName ::ₘ names l := rfl

@[simp] theorem names_append (l l' : List (RetDataInfo α)) : names (l ++ l') = names l + names l' := by
  simp [names]

@[simp] theorem names_reverse (l : List (RetDataInfo α)) : names l.reverse = names l := by
  simp [names]

@[simp] theorem card_names (l : List (RetDataInfo α)) : (names l).card = l.length := by
  simp [names]

@[simp] theorem hosts_nil : hosts ([] : List α) = 0 := rfl

@[simp] theorem hosts_cons (name : α) (hl : List α) : hosts (name :: hl) = some name ::ₘ hosts hl := rfl

@[simp] theorem hosts_append (hl hl' : List α) : hosts (hl ++ hl') = hosts hl + hosts hl' := by
  simp [hosts]

@[simp] theorem card_hosts (hl : List α) : (hosts hl).card = hl.length := by
  simp [hosts]

@[simp] theorem names_freshRecord (hl : List α) : names (hl.map freshRecord) = hosts hl := by
  simp [names, hosts, freshRecord, Function.comp_def]

@[simp] theorem named_named (name : α) (r : RetDataInfo α) : (r.named name).named name = r.named name := rfl

@[simp] theorem nodeName_named (name : α) (r : RetDataInfo α) :
    (r.named name).nodeName = some (r.nodeName.getD name) := rfl

variable {l : List (RetDataInfo α)} {hl : List α}

theorem map_named_of_le {name : α} (h : names l ≤ hosts hl) : l.map (·.named name) = l := by
  refine (map_congr_left fun r hr => ?_).trans l.map_id
  have hmem : r.nodeName ∈ hosts hl := Multiset.mem_of_le h (Multiset.mem_coe.2 (mem_map_of_mem hr))
  obtain ⟨x, -, hx⟩ := mem_map.1 (Multiset.mem_coe.1 hmem)
  rw [RetDataInfo.named, ← hx, Option.getD_some, hx]
  rfl

theorem names_eq_hosts_iff : names l = hosts hl ↔ (l.map RetDataInfo.nodeName).Perm (hl.map some) := by
  rw [names, hosts, Multiset.coe_eq_coe]

/-! ## What comes back -/

/-- How far `slurm_receive_msgs` gets with a message, and the records in the header, where it gets to it. -/
inductive Received (α : Type)
  | recvFailed (err : Errno)
  | badHeader
  | badVersion
  | noCredential (retList : List (RetDataInfo α))
  | badCredential (retList : List (RetDataInfo α))
  | badBody (retList : List (RetDataInfo α))
  | message (type : MsgType) (retList : List (RetDataInfo α))

/-- The records of the header. -/
def Received.retList : Received α → List (RetDataInfo α)
  | .recvFailed _ => []
  | .badHeader => []
  | .badVersion => []
  | .noCredential l => l
  | .badCredential l => l
  | .badBody l => l
  | .message _ l => l

/-- `rc` at `total_return`. -/
def Received.rc : Received α → Errno
  | .recvFailed err => err
  | .badHeader => .receiveError
  | .badVersion => .versionError
  | .noCredential _ => .incompletePacket
  | .badCredential _ => .authenticationError
  | .badBody _ => .incompletePacket
  | .message _ _ => .success

/-- `msg.msg_type`, which is set by the body. -/
def Received.type : Received α → MsgType
  | .message type _ => type
  | _ => .unset

/-- `slurm_receive_msgs`: the list, with a record without a name at its head for the host that has
    answered, and `errno`. -/
def slurmReceiveMsgs (r : Received α) : Option (List (RetDataInfo α)) × Errno :=
  if r.rc = .success then
    (some (⟨none, r.type, r.rc⟩ :: r.retList), r.rc)
  else if r.retList = [] then (none, r.rc)   -- header.ret_cnt is 0 and there is no list
  else (some (⟨none, .responseForwardFailed, r.rc⟩ :: r.retList), r.rc)

/-- What becomes of the attempt to reach a host whose address is known. -/
inductive Contact (α : Type)
  | noConn
  | notSent (err : Errno)
  | sent (r : Received α)

/-- What becomes of the attempt to reach a host. -/
inductive Attempt (α : Type)
  | noAddr
  | contact (c : Contact α)

/-- A host answers for the hosts it was asked to forward to, at most once for each: a missing, a partial or
    a complete reply. -/
def Attempt.Fits (hl : List α) : Attempt α → Prop
  | .contact (.sent r) => names r.retList ≤ hosts hl
  | _ => True

theorem slurmReceiveMsgs_eq_some {r : Received α}
    (h : (slurmReceiveMsgs r).1 = some l) : ∃ own, own.nodeName = none ∧ l = own :: r.retList := by
  unfold slurmReceiveMsgs at h
  split_ifs at h with h1 h2
  · exact ⟨_, rfl, (Option.some.inj h).symm⟩
  · exact ⟨_, rfl, (Option.some.inj h).symm⟩

/-! ## Turns -/

/-- Where a thread is: at the head of its loop, before it puts records into the return list (those it pushes
    without the lock, those it pushes with it, and what is left for the next turn), or at its end. -/
inductive Phase (α : Type)
  | shift (hl : List α)
  | push (marks todo : List (RetDataInfo α)) (rest : List α)
  | done

/-- The hosts a thread has not answered for. -/
def Phase.owed : Phase α → Multiset (Option α)
  | .shift hl => hosts hl
  | .push marks todo rest => names marks + names todo + hosts rest
  | .done => 0

/-- A turn from `name :: hl` answers for each host or leaves it, and has a record to push. -/
structure Phase.Settles (name : α) (hl : List α) (p : Phase α) : Prop where
  owed : p.owed = hosts (name :: hl)
  shape : ∃ marks todo rest, p = .push marks todo rest ∧ todo ≠ [] ∧ rest.Sublist hl ∧
    marks.length + rest.length ≤ hl.length

def forwardCnt (hl : List α) : BitVec 16 := BitVec.ofNat 16 hl.length

section
variable {name tmp : α} {a : Attempt α} {r : Received α} {type : MsgType} {own : RetDataInfo α}

theorem settles_partial {todo : List (RetDataInfo α)} {rest : List α}
    (howed : names todo + hosts rest = hosts (name :: hl)) (hne : todo ≠ []) (hsub : rest.Sublist hl) :
    (Phase.push [] todo rest).Settles name hl where
  owed := by simpa [Phase.owed] using howed
  shape := ⟨[], todo, rest, rfl, hne, hsub, by simpa using hsub.length_le⟩

theorem settles_failed (err : Errno) : (Phase.push [] [markAsFailedForward name err] hl).Settles name hl :=
  settles_partial (by simp [markAsFailedForward]) (cons_ne_nil _ _) (.refl _)

theorem settles_all {todo : List (RetDataInfo α)} (h : names todo = hosts (name :: hl)) :
    (Phase.push [] todo []).Settles name hl := by
  refine settles_partial (by simpa using h) ?_ (nil_sublist hl)
  rintro rfl
  simp at h

theorem names_complete (name : α) (hown : own.nodeName = none) (hfit : names r.retList ≤ hosts hl)
    (hlen : hl.length ≤ r.retList.length) : names ((own :: r.retList).map (·.named name)) = hosts (name :: hl) := by
  have heq : names r.retList = hosts hl := Multiset.eq_of_le_of_card_le hfit (by simpa using hlen)
  rw [map_cons, map_named_of_le hfit, names_cons, heq, nodeName_named, hown]
  rfl

theorem errno_of_list {errno : Errno} (h : slurmReceiveMsgs r = (some l, errno)) : errno ≠ .connectionError := by
  have hrc : r.rc = errno ∧ (r.rc = .success ∨ r.retList ≠ []) := by
    unfold slurmReceiveMsgs at h
    split_ifs at h with hrc hnil
    · exact ⟨(Prod.mk.inj h).2, .inl hrc⟩
    · exact absurd (Prod.mk.inj h).1 (by simp)
    · exact ⟨(Prod.mk.inj h).2, .inr hnil⟩
  rw [← hrc.1]
  cases r with
  | recvFailed err =>
    -- the only stage with an errno of the system has no records
    have hok : err = .success := hrc.2.resolve_right fun h => h rfl
    simp [Received.rc, hok]
  | badHeader | badVersion | noCredential | badCredential | badBody | message => simp [Received.rc]

variable [DecidableEq α]

/-- The inner loop: looks for `tmp` and names the record it finds without a name on the way; whether `tmp`
    is found and whether there was such a record. -/
def findNode (name tmp : α) : List (RetDataInfo α) → List (RetDataInfo α) × Bool × Bool
  | [] => ([], false, false)
  | r :: l =>
    if (r.named name).nodeName = some tmp then (r.named name :: l, true, r.nodeName.isNone)
    else
      let (l', nodeFound, first) := findNode name tmp l
      (r.named name :: l', nodeFound, r.nodeName.isNone || first)

/-- The loop over the hosts that were forwarded to: the records for those that are not in the list, the
    list, and whether `first_node_found`. -/
def markMissing (name : α) : List α → List (RetDataInfo α) →
    List (RetDataInfo α) × List (RetDataInfo α) × Bool
  | [], l => ([], l, false)
  | tmp :: hl, l =>
    let (l', nodeFound, first) := findNode name tmp l
    let (marks, l'', first') := markMissing name hl l'
    (if nodeFound then marks else markAsFailedForward tmp .connectionError :: marks, l'', first || first')

def forwardTurn (type : MsgType) (name : α) (hl : List α) : Attempt α → Phase α
  | .noAddr => .push [] [markAsFailedForward name .unknownForwardAddr] hl
  | .contact .noConn => .push [] [markAsFailedForward name .connectionError] hl
  | .contact (.notSent err) => .push [] [markAsFailedForward name err] hl
  | .contact (.sent r) =>
    if type = .requestShutdown ∨ type = .requestReconfigure ∨ type = .requestRebootNodes then
      -- these are not answered
      .push [] ((name :: hl).map freshRecord) []
    else
      match slurmReceiveMsgs r with
      | (none, errno) => .push [] [markAsFailedForward name errno] hl
      | (some l, errno) =>
        if forwardCnt hl ≠ 0 ∧ l.length ≤ 1 then .push [] [markAsFailedForward name errno] hl
        else if (forwardCnt hl).toNat + 1 ≠ l.length then
          let (marks, l', first) := markMissing name hl l
          .push (if first then marks else marks ++ [markAsFailedForward name .connectionError])
            (l'.map (·.named name)) []
        else .push [] (l.map (·.named name)) []

/-- `slurm_send_addr_recv_msgs`: there is always a list. -/
def slurmSendAddrRecvMsgs (name : α) : Contact α → List (RetDataInfo α) × Errno
  | .noConn => ([markAsFailedForward name .connectionError], .connectionError)
  | .notSent err => ([markAsFailedForward name err], .connectionError)
  | .sent r =>
    match slurmReceiveMsgs r with
    | (none, errno) => ([markAsFailedForward name errno], .connectionError)
    | (some l, errno) => (l.map (·.named name), errno)

/-- Takes the hosts that have answered, `name` apart, off the list (`hostlist_delete_host`). -/
def deleteAnswered (name : α) (hl : List α) (l : List (RetDataInfo α)) : List α :=
  l.foldl (fun hl r => if r.nodeName = some name then hl else
    match r.nodeName with
    | some n => hl.erase n
    | none => hl) hl

/-- A turn of `_fwd_tree_thread`. -/
def treeTurn (name : α) (hl : List α) : Attempt α → Phase α
  | .noAddr => .push [] [markAsFailedForward name .unknownForwardAddr] hl
  | .contact c =>
    let (l, errno) := slurmSendAddrRecvMsgs name c
    let hl' := if l.length ≤ (forwardCnt hl).toNat ∧ errno ≠ .connectionError ∧ 1 < l.length then
        deleteAnswered name hl l else hl
    if l.length ≤ (forwardCnt hl).toNat then .push [] l hl'
    else if errno = .connectionError then .push [] l hl'
    else .push [] l []

theorem hosts_filter_add {m : Multiset (Option α)} (hnd : hl.Nodup) (h : m ≤ hosts hl) :
    hosts (hl.filter fun x => some x ∉ m) + m = hosts hl := by
  have hnodup : (hosts hl).Nodup := Multiset.coe_nodup.2 (hnd.map (Option.some_injective α))
  have hin : (hosts hl).filter (· ∈ m) = m := by
    refine Eq.symm ((Multiset.Nodup.ext (Multiset.nodup_of_le h hnodup) (hnodup.filter _)).2 fun x => ?_)
    rw [Multiset.mem_filter]
    exact ⟨fun hx => ⟨Multiset.mem_of_le h hx, hx⟩, And.right⟩
  have hout : hosts (hl.filter fun x => some x ∉ m) = (hosts hl).filter (· ∉ m) := by
    simp [hosts, filter_map, Function.comp_def]
  calc hosts (hl.filter fun x => some x ∉ m) + m
      = (hosts hl).filter (· ∉ m) + (hosts hl).filter (· ∈ m) := by rw [hout, hin]
    _ = hosts hl := by rw [add_comm, Multiset.filter_add_not]

/-! ## `_forward_thread` -/

theorem findNode_map (name tmp : α) (l : List (RetDataInfo α)) :
    (findNode name tmp l).1.map (·.named name) = l.map (·.named name) := by
  induction l with
  | nil => rfl
  | cons r l ih =>
    rw [findNode]
    split_ifs with h
    · rfl
    · simpa using ih

theorem findNode_found : (findNode name tmp l).2.1 = true ↔ some tmp ∈ names (l.map (·.named name)) := by
  induction l with
  | nil => simp [findNode]
  | cons r l ih =>
    rw [findNode, map_cons, names_cons, Multiset.mem_cons]
    split_ifs with h
    · exact iff_of_true rfl (.inl h.symm)
    · rw [← ih]
      exact ⟨.inr, fun hor => hor.resolve_left (Ne.symm h)⟩

theorem markMissing_spec (name : α) (hl : List α) (l : List (RetDataInfo α)) :
    names (markMissing name hl l).1 = hosts (hl.filter fun x => some x ∉ names (l.map (·.named name))) ∧
      (markMissing name hl l).2.1.map (·.named name) = l.map (·.named name) := by
  induction hl generalizing l with
  | nil => exact ⟨rfl, rfl⟩
  | cons tmp hl ih =>
    obtain ⟨hmarks, hmap⟩ := ih (findNode name tmp l).1
    rw [findNode_map] at hmarks hmap
    refine ⟨?_, hmap⟩
    rw [markMissing, filter_cons]
    by_cases hfound : (findNode name tmp l).2.1 = true
    · simp [hfound, hmarks, findNode_found.1 hfound]
    · have hnot := mt findNode_found.2 hfound
      simp [hfound, hmarks, hnot, markAsFailedForward]

theorem markMissing_first {r : RetDataInfo α} (hr : r.nodeName = none) :
    (markMissing name (tmp :: hl) (r :: l)).2.2 = true := by
  rw [markMissing, findNode]
  split_ifs with h <;> simp [hr]

theorem markMissing_owed (hown : own.nodeName = none) (hnd : (name :: hl).Nodup) (hfit : names r.retList ≤ hosts hl) :
    names (markMissing name hl (own :: r.retList)).1 +
      names ((markMissing name hl (own :: r.retList)).2.1.map (·.named name)) = hosts (name :: hl) := by
  obtain ⟨hmarks, hmap⟩ := markMissing_spec name hl (own :: r.retList)
  obtain ⟨hname, hnd⟩ := nodup_cons.1 hnd
  have hnames : names ((own :: r.retList).map (·.named name)) = some name ::ₘ names r.retList := by
    rw [map_cons, map_named_of_le hfit, names_cons, nodeName_named, hown, Option.getD_none]
  have hfilter : hl.filter (fun x => some x ∉ some name ::ₘ names r.retList) =
      hl.filter fun x => some x ∉ names r.retList := by
    refine filter_congr fun x hx => ?_
    have hne : x ≠ name := fun h => hname (h ▸ hx)
    simp [hne]
  rw [hmarks, hmap, hnames, hfilter, Multiset.add_cons, hosts_filter_add hnd hfit]
  rfl

theorem markMissing_settles (hown : own.nodeName = none) (hnd : (name :: hl).Nodup)
    (hfit : names r.retList ≤ hosts hl) (hne : hl ≠ []) :
    (Phase.push
      (if (markMissing name hl (own :: r.retList)).2.2 then (markMissing name hl (own :: r.retList)).1
        else (markMissing name hl (own :: r.retList)).1 ++ [markAsFailedForward name .connectionError])
      ((markMissing name hl (own :: r.retList)).2.1.map (·.named name)) []).Settles name hl := by
  have hfirst : (markMissing name hl (own :: r.retList)).2.2 = true := by
    obtain ⟨tmp, hl, rfl⟩ := exists_cons_of_ne_nil hne
    exact markMissing_first hown
  obtain ⟨hmarks, hmap⟩ := markMissing_spec name hl (own :: r.retList)
  rw [if_pos hfirst]
  refine ⟨?_, _, _, [], rfl, ?_, nil_sublist hl, ?_⟩
  · rw [Phase.owed, hosts_nil, add_zero]
    exact markMissing_owed hown hnd hfit
  · rw [hmap]
    exact cons_ne_nil _ _
  · have hcard := congrArg Multiset.card hmarks
    rw [card_names, card_hosts] at hcard
    rw [hcard, length_nil, add_zero]
    exact length_filter_le _ hl

/-- **A turn of `_forward_thread`** answers for each host or leaves it for the next turn. -/
theorem forwardTurn_settles (hnd : (name :: hl).Nodup) (hlen : hl.length < 2 ^ 16) (hfit : a.Fits hl) :
    (forwardTurn type name hl a).Settles name hl := by
  have hcnt : (forwardCnt hl).toNat = hl.length := by
    rw [forwardCnt, BitVec.toNat_ofNat, Nat.mod_eq_of_lt hlen]
  match a, hfit with
  | .noAddr, _ => exact settles_failed _
  | .contact .noConn, _ => exact settles_failed _
  | .contact (.notSent err), _ => exact settles_failed _
  | .contact (.sent r), hfit =>
    change names r.retList ≤ hosts hl at hfit
    rw [forwardTurn]
    split_ifs with hway
    · exact settles_all (names_freshRecord (name :: hl))
    · cases hr : slurmReceiveMsgs r with
      | mk l errno =>
        cases l with
        | none => exact settles_failed _
        | some l =>
          obtain ⟨own, hown, rfl⟩ := slurmReceiveMsgs_eq_some (by rw [hr])
          have hle : r.retList.length ≤ hl.length := by simpa using Multiset.card_le_card hfit
          dsimp only
          rw [hcnt, length_cons]
          split
          next hnone =>
            exact settles_failed _
          next hnone =>
            split
            next hpart =>
              exact markMissing_settles hown hnd hfit (by
                rintro rfl
                rw [length_nil] at hle hpart
                omega)
            next hpart =>
              exact settles_all (names_complete name hown hfit (by omega))

/-! ## `_fwd_tree_thread` -/

theorem deleteAnswered_cons_self (h : own.nodeName = some name) :
    deleteAnswered name hl (own :: l) = deleteAnswered name hl l := by
  rw [deleteAnswered, foldl_cons, if_pos h, deleteAnswered]

theorem deleteAnswered_spec (hname : name ∉ hl) (hfit : names l ≤ hosts hl) :
    names l + hosts (deleteAnswered name hl l) = hosts hl ∧ (deleteAnswered name hl l).Sublist hl := by
  induction l generalizing hl with
  | nil => exact ⟨zero_add _, .refl _⟩
  | cons r l ih =>
    rw [names_cons] at hfit
    have hmem : r.nodeName ∈ hosts hl := Multiset.mem_of_le hfit (Multiset.mem_cons_self _ _)
    obtain ⟨x, hx, hr⟩ := mem_map.1 (Multiset.mem_coe.1 hmem)
    have hne : r.nodeName ≠ some name := by
      rw [← hr]
      rintro h
      exact hname (Option.some.inj h ▸ hx)
    have hhosts : hosts hl = some x ::ₘ hosts (hl.erase x) :=
      Multiset.coe_eq_coe.2 ((perm_cons_erase hx).map some)
    have hstep : deleteAnswered name hl (r :: l) = deleteAnswered name (hl.erase x) l := by
      rw [deleteAnswered, foldl_cons, if_neg hne, ← hr, deleteAnswered]
    rw [hhosts, ← hr, Multiset.cons_le_cons_iff] at hfit
    obtain ⟨hsum, hsub⟩ := ih (fun h => hname (mem_of_mem_erase h)) hfit
    rw [hstep]
    refine ⟨?_, hsub.trans erase_sublist⟩
    rw [names_cons, ← hr, Multiset.cons_add, hsum, ← hhosts]

theorem treeTurn_failed {c : Contact α} {err : Errno}
    (h : slurmSendAddrRecvMsgs name c = ([markAsFailedForward name err], .connectionError)) :
    (treeTurn name hl (.contact c)).Settles name hl := by
  rw [treeTurn, h]
  dsimp only
  have hkeep : ¬([markAsFailedForward name err].length ≤ (forwardCnt hl).toNat ∧
      Errno.connectionError ≠ .connectionError ∧ 1 < [markAsFailedForward name err].length) := fun h => h.2.1 rfl
  rw [if_neg hkeep, if_pos rfl, ite_self]
  exact settles_failed err

/-- **A turn of `_fwd_tree_thread`** answers for each host or leaves it for the next turn. -/
theorem treeTurn_settles (hnd : (name :: hl).Nodup) (hlen : hl.length < 2 ^ 16) (hfit : a.Fits hl) :
    (treeTurn name hl a).Settles name hl := by
  have hcnt : (forwardCnt hl).toNat = hl.length := by
    rw [forwardCnt, BitVec.toNat_ofNat, Nat.mod_eq_of_lt hlen]
  match a, hfit with
  | .noAddr, _ => exact settles_failed _
  | .contact .noConn, _ => exact treeTurn_failed rfl
  | .contact (.notSent err), _ => exact treeTurn_failed rfl
  | .contact (.sent r), hfit =>
    change names r.retList ≤ hosts hl at hfit
    cases hr : slurmReceiveMsgs r with
    | mk l errno =>
      cases l with
      | none => exact treeTurn_failed (by rw [slurmSendAddrRecvMsgs, hr])
      | some l =>
        have herr := errno_of_list hr
        obtain ⟨own, hown, rfl⟩ := slurmReceiveMsgs_eq_some (by rw [hr])
        have hle : r.retList.length ≤ hl.length := by simpa using Multiset.card_le_card hfit
        have hself : (own.named name).nodeName = some name := by rw [nodeName_named, hown, Option.getD_none]
        obtain ⟨hsum, hsub⟩ := deleteAnswered_spec (nodup_cons.1 hnd).1 hfit
        rw [treeTurn, slurmSendAddrRecvMsgs, hr]
        dsimp only
        rw [hcnt, map_cons, map_named_of_le hfit, length_cons, deleteAnswered_cons_self hself]
        by_cases hpart : r.retList.length + 1 ≤ hl.length
        · rw [if_pos hpart]
          by_cases hmore : 1 < r.retList.length + 1
          · rw [if_pos ⟨hpart, herr, hmore⟩]
            refine settles_partial ?_ (cons_ne_nil _ _) hsub
            rw [names_cons, hself, Multiset.cons_add, hsum]
            rfl
          · rw [if_neg fun h => hmore h.2.2]
            have hnil : r.retList = [] := eq_nil_of_length_eq_zero (by omega)
            refine settles_partial ?_ (cons_ne_nil _ _) (.refl _)
            rw [hnil, names_cons, hself, Multiset.cons_add, names_nil, zero_add]
            rfl
        · rw [if_neg hpart, if_neg herr]
          refine settles_all ?_
          have hall := names_complete name hown hfit (by omega)
          rwa [map_cons, map_named_of_le hfit] at hall

/-! ## Lists that are too long -/

def countedReply (hl : List α) : Attempt α :=
  .contact (.sent (.message .unset ((hl.take (forwardCnt hl).toNat).map freshRecord)))

omit [DecidableEq α] in
theorem countedReply_fits : (countedReply hl).Fits hl := by
  show names ((hl.take (forwardCnt hl).toNat).map freshRecord) ≤ hosts hl
  rw [names_freshRecord]
  exact Multiset.coe_le.2 ((take_sublist _ _).map some).subperm

theorem treeTurn_countedReply :
    treeTurn name hl (countedReply hl) =
      .push [] (freshRecord name :: (hl.take (forwardCnt hl).toNat).map freshRecord) [] := by
  have hle : (forwardCnt hl).toNat ≤ hl.length := by
    rw [forwardCnt, BitVec.toNat_ofNat]
    exact Nat.mod_le _ _
  have hnamed : ((hl.take (forwardCnt hl).toNat).map freshRecord).map (·.named name) =
      (hl.take (forwardCnt hl).toNat).map freshRecord := map_named_of_le countedReply_fits
  rw [countedReply, treeTurn]
  simp only [slurmSendAddrRecvMsgs, slurmReceiveMsgs, Received.rc, Received.retList, Received.type, if_true,
    map_cons, hnamed]
  rw [if_neg, if_neg (by simp)]
  · rfl
  · simp [hle]

/-- **The count is what the law hangs on**: it holds of every turn, whatever comes back, if the length of
    the list fits into 16 bits, and only then. -/
theorem treeTurn_settles_iff (hnd : (name :: hl).Nodup) :
    (∀ a : Attempt α, a.Fits hl → (treeTurn name hl a).Settles name hl) ↔ hl.length < 2 ^ 16 := by
  refine ⟨fun h => ?_, fun hlen a => treeTurn_settles hnd hlen⟩
  by_contra hlarge
  have hcnt : (forwardCnt hl).toNat < 2 ^ 16 := (forwardCnt hl).isLt
  have hcard := congrArg Multiset.card (h _ countedReply_fits).owed
  rw [treeTurn_countedReply, Phase.owed, names_cons, names_freshRecord] at hcard
  simp at hcard
  omega

end

end Slurmpp.Forward
