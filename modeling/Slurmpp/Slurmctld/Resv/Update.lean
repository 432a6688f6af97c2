/-
  Updating a reservation (`update_resv`, with `_copy_resv` and `_restore_resv`).

  The request is worked off on the reservation itself, and every check on the way can refuse it.  A copy is made before
  the first change and put back when a check fails.  Names are looked up by parameters (`Env`).

  Every stage but two keeps what the copy does not bring back, and gives an error code when it refuses (`keeps_*`).  The
  two are the licenses, where one refusal sets no error code and clearing them leaves a freed list behind, and the
  users, which can change `user_not`: `refused_update_changes_nothing_iff`.
-/
import Slurmpp.Lib.Stages
import Slurmpp.Slurmctld.Resv.Overlap
import Slurmpp.Slurmctld.Resv.Names

namespace Slurmpp.Resv

open Bitstring Licenses Stages Option

/-! ## The copy -/

/-- `_list_dup`; the totals are not copied, and `list_push` puts each license in front. -/
def listDup (list : List License) : List License := (list.map fun l => { l with total := 0 }).reverse

/-- `_copy_resv`; `bit_copy` needs a bitmap of nodes. -/
def copyResv (r : Reservation) : Option Reservation := r.nodeBitmap.map fun nodes =>
  { r with
    licenseList := r.licenseList.map listDup
    coreBitmap := r.coreBitmap.map bitCopy
    nodeBitmap := some (bitCopy nodes)
    runEpilog := false
    runProlog := false }

def restoreResv (dest src : Reservation) : Reservation :=
  { src with runEpilog := dest.runEpilog, runProlog := dest.runProlog, userNot := dest.userNot }

/-! ## Update -/

/-- The codes that are not `SLURM_SUCCESS`; those of functions that are not modelled are `other`. -/
inductive Err
  | reservationInvalid
  | reservationNotUsable
  | invalidPartitionName
  | defaultPartitionNotSet
  | invalidAccount
  | invalidLicenses
  | notSupported
  | userIdMissing
  | reservationEmpty
  | invalidTimeValue
  | invalidNodeName
  | reservationOverlap
  | nodesBusy
  | other (code : Nat)
deriving DecidableEq

structure FlagsMsg where
  maint : Bool
  noMaint : Bool
  overlap : Bool
  ignJobs : Bool
  noIgnJob : Bool
  daily : Bool
  noDaily : Bool
  weekly : Bool
  noWeekly : Bool
  licOnly : Bool
  noLicOnly : Bool
  static : Bool
  noStatic : Bool
  partNodes : Bool
  noPartNodes : Bool

/-- `resv_desc_msg_t`; a field that is `NULL` or `NO_VAL` is `none`. -/
structure ResvDesc where
  name : Option Text
  flags : Option FlagsMsg
  part : Option Text
  accounts : Option Text
  licenses : Option Text
  features : Option Text
  users : Option Text
  startTime : Option Int
  endTime : Option Int
  duration : Option (BitVec 32)
  nodeList : Option Text
  nodeCnt : Option (List (BitVec 32))

/-- `node_bitmap` and `nodes` of a partition. -/
structure PartNodes where
  nodeBitmap : Option Bitstr
  nodes : Option Text

/-- What the controller knows beside the reservations. -/
structure Env where
  now : Int
  nodeRecordCount : Nat
  findPartRecord : Text → Option Nat
  partNodes : Nat → PartNodes
  defaultPartLoc : Option Nat
  isAccountValid : Text → Bool
  uidFromString : Text → Option (BitVec 32)
  licenseValidate : Text → Option (Option (List License))
  nodeName2bitmap : Text → Option Bitstr
  /-- The nodes, and their names, that stay with a smaller count. -/
  fewerNodes : Reservation → BitVec 32 → Option Bitstr × Option Text
  /-- `_select_nodes` after its loop: the nodes with the new ones, the cores, and the names. -/
  selectNodes : List Reservation → Reservation → BitVec 32 → Except Err (Option Bitstr × Option Bitstr × Option Text)
  jobOverlap : Int → Flags → Option Bitstr → Bool
  cpus : Nat → BitVec 32
  /-- `_set_assoc_list` -/
  assocs : Reservation → Option Text × Option Err

/-- The reservation and the request that are worked on, and the list for the tests; `licensesFreed` says that
    `license_list` points to a list that was destroyed. -/
structure Work where
  list : List Reservation
  resv : Reservation
  desc : ResvDesc
  licensesFreed : Bool

/-- `error_code` at `update_failure` is `none` for `SLURM_SUCCESS`. -/
abbrev Stage := Work → Stages.Outcome Work (Option Err)

def FlagsMsg.apply (m : FlagsMsg) (f : Flags) : Flags where
  maint := (f.maint || m.maint) && !m.noMaint
  overlap := f.overlap || m.overlap
  ignJobs := (f.ignJobs || m.ignJobs) && !m.noIgnJob
  daily := (f.daily || m.daily) && !m.noDaily
  weekly := (f.weekly || m.weekly) && !m.noWeekly
  licOnly := (f.licOnly || m.licOnly) && !m.noLicOnly
  static := (f.static || m.static) && !m.noStatic
  partNodes := (f.partNodes || m.partNodes) && !m.noPartNodes
  specNodes := f.specNodes

def updateFlags : Stage := fun w =>
  match w.desc.flags with
  | none => .go w
  | some m =>
    if m.partNodes ∧ w.resv.part = none ∧ w.desc.part = none then
      let f := { m.apply w.resv.flags with partNodes := w.resv.flags.partNodes }
      .fail { w with resv := { w.resv with flags := f } } (some .invalidPartitionName)
    else .go { w with
      resv := { w.resv with flags := m.apply w.resv.flags }
      -- explicitly set the node list to ALL
      desc := if m.partNodes then { w.desc with nodeList := some "ALL".toList } else w.desc }

def updatePart (env : Env) : Stage := fun w =>
  match w.desc.part with
  | none => .go w
  | some [] => .go { w with resv := { w.resv with part := none, partPtr := none } }
  | some name =>
    match env.findPartRecord name with
    | none => .fail w (some .invalidPartitionName)
    | some part => .go { w with resv := { w.resv with part := some name, partPtr := some part } }

def updateAccounts (env : Env) : Stage := fun w =>
  match w.desc.accounts with
  | none => .go w
  | some accounts =>
    let updated := updateAccountList env.isAccountValid w.resv accounts
    if updated.2 then .go { w with resv := updated.1 } else .fail { w with resv := updated.1 } (some .invalidAccount)

/-- Whether the reservation would be left without nodes. -/
def noNodes (r : Reservation) (desc : ResvDesc) : Bool :=
  match desc.nodeCnt with
  | some cnt => cnt.headD 0 = 0
  | none => r.nodeCnt = 0

def updateLicenses (env : Env) : Stage := fun w =>
  match w.desc.licenses with
  | none => .go w
  | some [] =>
    -- here the source sets `rc` and not `error_code`
    if noNodes w.resv w.desc then .fail w none
    else .go { w with
      resv := { w.resv with licenses := none }
      licensesFreed := w.licensesFreed || w.resv.licenseList.isSome }
  | some text =>
    match env.licenseValidate text with
    | none => .fail w (some .invalidLicenses)
    | some list => .go { w with resv := { w.resv with licenses := some text, licenseList := list } }

def updateFeatures : Stage := fun w =>
  match w.desc.features with
  | none => .go w
  | some [] => .go { w with resv := { w.resv with features := none } }
  | some _ => .fail w (some .notSupported)

def updateUsers (env : Env) : Stage := fun w =>
  match w.desc.users with
  | none => .go w
  | some users =>
    match updateUidList env.uidFromString w.resv users with
    | none => .fault
    | some (r, true) => .go { w with resv := r }
    | some (r, false) => .fail { w with resv := r } (some .userIdMissing)

def testEmpty : Stage := fun w =>
  if w.resv.users = none ∧ w.resv.accounts = none then .fail w (some .reservationEmpty) else .go w

/-- The end of a reservation with a duration in minutes. -/
def durationEnd (start : Int) (duration : BitVec 32) : Int := start + (duration * 60).toNat

def updateStart (env : Env) : Stage := fun w =>
  match w.desc.startTime with
  | none => .go w
  | some start =>
    if start < env.now - 60 then .fail w (some .invalidTimeValue)
    else .go { w with resv := { w.resv with
      startTimePrev := w.resv.startTime
      startTime := start
      startTimeFirst := start
      endTime := if w.resv.duration = 0 then w.resv.endTime else durationEnd start w.resv.duration } }

def updateEnd (env : Env) : Stage := fun w =>
  match w.desc.endTime with
  | none => .go w
  | some endTime =>
    if endTime < env.now - 60 then .fail w (some .invalidTimeValue)
    else .go { w with resv := { w.resv with endTime := endTime, duration := 0 } }

def updateDuration : Stage := fun w =>
  match w.desc.duration with
  | none => .go w
  | some duration => .go { w with resv := { w.resv with
      duration := duration, endTime := durationEnd w.resv.startTimeFirst duration } }

def testTimes : Stage := fun w =>
  if w.resv.startTime ≥ w.resv.endTime then .fail w (some .invalidTimeValue) else .go w

def clearNodes (env : Env) : Stage := fun w =>
  if w.desc.nodeList ≠ some [] then .go w
  else
    match bitAlloc env.nodeRecordCount with
    | none => .fault
    | some nodes => .go { w with
        resv := { w.resv with
          flags := { w.resv.flags with specNodes := false }
          nodeList := none
          nodeBitmap := some nodes
          coreBitmap := none
          nodeCnt := 0 }
        desc := { w.desc with
          nodeList := none
          nodeCnt := if (w.desc.nodeCnt.getD []).headD 0 = 0 then some [w.resv.nodeCnt] else w.desc.nodeCnt } }

/-- `bit_set_count` -/
def setCount (b : Bitstr) : BitVec 32 := BitVec.ofNat 32 ((List.range b.bits).countP (bitTest b))

/-- New nodes for the reservation; `partNodes` says that they are those of its partition. -/
def Work.setNodes (w : Work) (partNodes : Bool) (nodes : Bitstr) (names : Option Text) : Work :=
  { w with
    resv := { w.resv with
      flags := { w.resv.flags with specNodes := true, partNodes := partNodes }
      nodeList := names
      nodeBitmap := some nodes
      coreBitmap := none
      nodeCnt := setCount nodes }
    desc := { w.desc with nodeList := none } }

def everyNode (env : Env) : Option Bitstr :=
  (bitAlloc env.nodeRecordCount).bind fun nodes => bitNset nodes 0 (env.nodeRecordCount - 1)

def updateNodes (env : Env) : Stage := fun w =>
  match w.desc.nodeList with
  | none => .go w
  | some nodeList =>
    if nodeList.map Char.toLower = "all".toList then
      match w.resv.part, w.resv.flags.partNodes with
      | some part, true =>
        match (env.findPartRecord part).map env.partNodes with
        | some ⟨some nodes, names⟩ => .go (w.setNodes true (bitCopy nodes) names)
        | _ => .fault
      | _, _ =>
        match everyNode env with
        | some nodes => .go (w.setNodes false nodes (some nodeList))
        | none => .fault
    else
      match env.nodeName2bitmap nodeList with
      | some nodes => .go (w.setNodes false nodes (some nodeList))
      | none => .fail
          { w with resv := { w.resv with flags := { w.resv.flags with specNodes := true, partNodes := false } } }
          (some .invalidNodeName)

/-- The loop of `_select_nodes` at one reservation: it may move on, or be found to be one of whole nodes. -/
def noteReserved (now startTime endTime : Int) (r : Reservation) : Reservation :=
  let r := if r.endTime ≤ now then advanceResvTime r else r
  if r.nodeBitmap = none ∨ r.startTime ≥ endTime ∨ r.endTime ≤ startTime then r
  else if r.coreBitmap = none ∧ !r.fullNodes then { r with fullNodes := true }
  else r

/-- The partition of `_select_nodes` and its loop, which is left out for a reservation that may overlap others. -/
def Work.noted (env : Env) (w : Work) (part : Nat) : Work :=
  let resv := { w.resv with partPtr := some part }
  if w.resv.flags.maint || w.resv.flags.overlap then { w with resv := resv }
  else
    let note := noteReserved env.now w.resv.startTime w.resv.endTime
    { w with list := w.list.map note, resv := note resv }

def resizeResv (env : Env) (nodeCnt : BitVec 32) : Stage := fun w =>
  let delta := (w.resv.nodeCnt - nodeCnt).toInt
  if delta = 0 then .go w
  else if delta > 0 then
    let (nodes, names) := env.fewerNodes w.resv nodeCnt
    .go { w with resv := { w.resv with nodeBitmap := nodes, nodeList := names, nodeCnt := nodeCnt } }
  else
    match w.resv.partPtr.or env.defaultPartLoc with
    | none => .fail w (some .defaultPartitionNotSet)
    | some part =>
      let w := w.noted env part
      match env.selectNodes w.list w.resv nodeCnt with
      | .error code => .fail w (some code)
      | .ok (nodes, cores, names) => .go { w with resv := { w.resv with
          nodeBitmap := nodes, coreBitmap := cores, nodeList := names, nodeCnt := nodeCnt } }

def countNodes : Stage := fun w =>
  match w.resv.nodeBitmap with
  | none => .fault
  | some nodes => .go { w with resv := { w.resv with nodeCnt := setCount nodes } }

def updateNodeCnt (env : Env) : Stage := fun w =>
  match w.desc.nodeCnt with
  | none => .go w
  | some cnt =>
    (resizeResv env (cnt.takeWhile (· ≠ 0)).sum
      { w with resv := { w.resv with flags := { w.resv.flags with partNodes := false } } }).bind countNodes

/-- `_resv_overlap` and `_job_overlap`; `i` is the place of the reservation. -/
def testOverlap (env : Env) (i : Nat) : Stage := fun w =>
  if resvOverlap w.list w.resv.startTime w.resv.endTime w.resv.flags w.resv.nodeBitmap (some i) then
    .fail w (some .reservationOverlap)
  else if env.jobOverlap w.resv.startTime w.resv.flags w.resv.nodeBitmap then .fail w (some .nodesBusy)
  else .go w

def setCpuCnt (env : Env) : Stage := fun w =>
  match w.resv.nodeBitmap with
  | none => .go w
  | some nodes => .go { w with resv := { w.resv with
      cpuCnt := (((List.range env.nodeRecordCount).filter (bitTest nodes)).map env.cpus).sum } }

def updateAssocs (env : Env) : Stage := fun w =>
  let (list, error) := env.assocs w.resv
  match error with
  | none => .go { w with resv := { w.resv with assocList := list } }
  | some code => .fail { w with resv := { w.resv with assocList := list } } (some code)

/-- The stages up to the accounts. -/
def early (env : Env) : Stage := fun w => ((updateFlags w).bind (updatePart env)).bind (updateAccounts env)

/-- The stages behind the users. -/
def late (env : Env) (i : Nat) : Stage := fun w =>
  ((((((((((testEmpty w).bind (updateStart env)).bind (updateEnd env)).bind updateDuration).bind testTimes).bind
    (clearNodes env)).bind (updateNodes env)).bind (updateNodeCnt env)).bind (testOverlap env i)).bind
      (setCpuCnt env)).bind (updateAssocs env)

/-- The request worked off, to its end or to `update_failure`. -/
def process (env : Env) (i : Nat) : Stage := fun w =>
  ((((early env w).bind (updateLicenses env)).bind updateFeatures).bind (updateUsers env)).bind (late env i)

/-- `_post_resv_update`, as far as it changes the reservation: one that has begun and changes in what is accounted
    begins anew. -/
def postResvUpdate (now : Int) (r old : Reservation) : Reservation :=
  if r.startTime < now ∧ ((r.assocList.isSome ∧ old.assocList ≠ r.assocList) ∨
      (r.nodeList.isSome ∧ old.nodeList ≠ r.nodeList) ∨ old.flags ≠ r.flags ∨ old.cpuCnt ≠ r.cpuCnt) then
    { r with startTimePrev := r.startTime, startTime := now }
  else r

inductive Result
  /-- before there is a copy -/
  | refused (code : Err)
  /-- at `update_failure` -/
  | failed (list : List Reservation) (code : Option Err)
  | updated (list : List Reservation)
  | fault

/-- What comes after the request is worked off.  A list of licenses that was destroyed is destroyed again when the
    copy is put back. -/
def finish (env : Env) (i : Nat) (backup : Reservation) : Stages.Outcome Work (Option Err) → Result
  | .go w => .updated (w.list.set i (postResvUpdate env.now w.resv backup))
  | .fail w code => if w.licensesFreed then .fault else .failed (w.list.set i (restoreResv w.resv backup)) code
  | .fault => .fault

/-- Finds the reservation and makes the checks before there is a copy. -/
def findResv (list : List Reservation) (desc : ResvDesc) : Except Err (Nat × Reservation) :=
  match desc.name.bind fun name => list.zipIdx.find? (·.1.name = name) with
  | none => .error .reservationInvalid
  | some (r, i) =>
    if !r.fullNodes && (desc.nodeCnt.isSome || desc.nodeList.isSome) then .error .reservationNotUsable else .ok (i, r)

def updateResv (env : Env) (list : List Reservation) (desc : ResvDesc) : Result :=
  match findResv list desc with
  | .error code => .refused code
  | .ok (i, r) =>
    match copyResv r with
    | none => .fault
    | some backup => finish env i backup (process env i ⟨list, r, desc, false⟩)

/-! ## What stays -/

variable {env : Env} {w w' : Work} {i : Nat} {code : Option Err}

/-- What no stage changes, though the copy does not bring it back. -/
def Work.still (w : Work) : Bool × Bool × Nat := (w.resv.runEpilog, w.resv.runProlog, w.list.length)

/-- What the copy does not bring back. -/
def Work.kept (w : Work) : Bool × Bool × Bool × Bool × Nat := (w.resv.userNot, w.licensesFreed, w.still)

/-- What the features and the users look at. -/
def Work.userSide (w : Work) : Option Text × Option Text × Option Text × List (BitVec 32) :=
  (w.desc.features, w.desc.users, w.resv.users, w.resv.userList)

/-- What the licenses look at. -/
def Work.licenseSide (w : Work) : Option Text × Option (List (BitVec 32)) × BitVec 32 × Option (List License) :=
  (w.desc.licenses, w.desc.nodeCnt, w.resv.nodeCnt, w.resv.licenseList)

/-- What the partition and the accounts look at. -/
def Work.accountSide (w : Work) : Option Text × Option Text × Option Text × List Text × Bool :=
  (w.desc.part, w.desc.accounts, w.resv.accounts, w.resv.accountList, w.resv.accountNot)

def IsError (code : Option Err) : Prop := code ≠ none

theorem keeps_updateFlags (w : Work) : Keeps (fun w => (w.accountSide, w.licenseSide, w.userSide, w.kept)) IsError w
    (updateFlags w) := by
  unfold updateFlags
  cases w.desc.flags with
  | none => rfl
  | some m =>
    dsimp only
    split_ifs
    · exact ⟨rfl, nofun⟩
    · rfl
    · rfl

theorem keeps_updatePart (env : Env) (w : Work) : Keeps (fun w => (w.accountSide, w.licenseSide, w.userSide, w.kept)) IsError w
    (updatePart env w) := by
  unfold updatePart
  split
  · rfl
  · rfl
  · split
    · exact ⟨rfl, nofun⟩
    · rfl

theorem keeps_updateAccounts : Keeps (fun w => (w.licenseSide, w.userSide, w.kept)) IsError w
    (updateAccounts env w) := by
  unfold updateAccounts
  cases w.desc.accounts with
  | none => rfl
  | some accounts =>
    obtain ⟨r, hr⟩ : ∃ r, (updateAccountList env.isAccountValid w.resv accounts).1 = w.resv.withAccounts r :=
      ⟨_, updateAccountList_fst w.resv env.isAccountValid accounts⟩
    dsimp only
    rw [hr]
    split_ifs
    · rfl
    · exact ⟨rfl, nofun⟩

theorem kept_noted (part : Nat) : (w.noted env part).kept = w.kept := by
  have hadv : ∀ r : Reservation, let r' := advanceResvTime r
      r'.userNot = r.userNot ∧ r'.runEpilog = r.runEpilog ∧ r'.runProlog = r.runProlog := fun r => by
    unfold advanceResvTime
    split_ifs <;> exact ⟨rfl, rfl, rfl⟩
  have hnote : ∀ r : Reservation, let r' := noteReserved env.now w.resv.startTime w.resv.endTime r
      r'.userNot = r.userNot ∧ r'.runEpilog = r.runEpilog ∧ r'.runProlog = r.runProlog := fun r => by
    unfold noteReserved
    dsimp only
    split_ifs
    all_goals first | exact ⟨rfl, rfl, rfl⟩ | exact hadv r
  unfold Work.noted
  split_ifs
  · rfl
  · obtain ⟨h1, h2, h3⟩ := hnote { w.resv with partPtr := some part }
    simp [Work.kept, Work.still, h1, h2, h3]

theorem keeps_resizeResv (nodeCnt : BitVec 32) : Keeps Work.kept IsError w (resizeResv env nodeCnt w) := by
  fun_cases resizeResv with
  | case1 | case2 => rfl
  | case3 => exact ⟨rfl, nofun⟩
  | case4 => exact ⟨kept_noted .., nofun⟩
  | case5 => exact kept_noted ..

theorem keeps_late (env : Env) (i : Nat) (w : Work) : Keeps Work.kept IsError w (late env i w) := by
  refine (((((((((Keeps.bind ?_ fun w => ?_).bind fun w => ?_).bind fun w => ?_).bind fun w => ?_).bind
    fun w => ?_).bind fun w => ?_).bind fun w => ?_).bind fun w => ?_).bind fun w => ?_).bind fun w => ?_
  · fun_cases testEmpty with
    | case1 => exact ⟨rfl, nofun⟩
    | case2 => rfl
  · fun_cases updateStart with
    | case2 => exact ⟨rfl, nofun⟩
    | case1 | case3 => rfl
  · fun_cases updateEnd with
    | case2 => exact ⟨rfl, nofun⟩
    | case1 | case3 => rfl
  · fun_cases updateDuration with
    | case1 | case2 => rfl
  · fun_cases testTimes with
    | case1 => exact ⟨rfl, nofun⟩
    | case2 => rfl
  · fun_cases clearNodes with
    | case1 | case3 => rfl
    | case2 => trivial
  · fun_cases updateNodes with
    | case1 | case2 | case4 | case6 => rfl
    | case3 | case5 => trivial
    | case7 => exact ⟨rfl, nofun⟩
  · unfold updateNodeCnt
    cases w.desc.nodeCnt with
    | none => rfl
    | some cnt =>
      refine Keeps.bind (keeps_resizeResv _) fun w => ?_
      unfold countNodes
      cases w.resv.nodeBitmap with
      | none => trivial
      | some nodes => rfl
  · fun_cases testOverlap with
    | case1 | case2 => exact ⟨rfl, nofun⟩
    | case3 => rfl
  · fun_cases setCpuCnt with
    | case1 | case2 => rfl
  · fun_cases updateAssocs with
    | case1 => rfl
    | case2 => exact ⟨rfl, nofun⟩

/-! ## A refused update -/

/-- The request gets to the licenses. -/
def PassesEarly (env : Env) (r : Reservation) (desc : ResvDesc) : Prop :=
  (∀ m, desc.flags = some m → m.partNodes = true → r.part ≠ none ∨ desc.part ≠ none) ∧
  (∀ name, desc.part = some name → name ≠ [] → env.findPartRecord name ≠ none) ∧
  (∀ accounts, desc.accounts = some accounts → (updateAccountList env.isAccountValid r accounts).2 = true)

theorem updateFlags_eq_go : (∃ w', updateFlags w = .go w') ↔
    ∀ m, w.desc.flags = some m → m.partNodes = true → w.resv.part ≠ none ∨ w.desc.part ≠ none := by
  unfold updateFlags
  cases w.desc.flags with
  | none => simp
  | some m =>
    dsimp only
    split_ifs with h
    · simp [h]
    all_goals
      simp only [Stages.Outcome.go.injEq, exists_eq', some.injEq, true_iff]
      rintro _ rfl hp
      tauto

theorem updatePart_eq_go : (∃ w', updatePart env w = .go w') ↔
    ∀ name, w.desc.part = some name → name ≠ [] → env.findPartRecord name ≠ none := by
  unfold updatePart
  split
  · simp [*]
  · simp [*]
  · next name hne hp =>
    rw [hp]
    split
    · simp_all
    · simp_all

theorem updateAccounts_eq_go : (∃ w', updateAccounts env w = .go w') ↔
    ∀ accounts, w.desc.accounts = some accounts → (updateAccountList env.isAccountValid w.resv accounts).2 = true := by
  unfold updateAccounts
  cases w.desc.accounts with
  | none => simp
  | some accounts =>
    dsimp only
    split_ifs with h
    · simp [h]
    · simp [h]

theorem keeps_early (env : Env) (w : Work) : Keeps (fun w => (w.licenseSide, w.userSide, w.kept)) IsError w (early env w) := by
  refine (Keeps.bind ?_ fun w => ?_).bind fun w => keeps_updateAccounts
  · exact (keeps_updateFlags w).mono Prod.snd
  · exact (keeps_updatePart env w).mono Prod.snd

theorem early_eq_go (env : Env) (w : Work) : (∃ w', early env w = .go w') ↔ PassesEarly env w.resv w.desc := by
  unfold PassesEarly
  rw [← updateFlags_eq_go]
  have hflags := keeps_updateFlags w
  unfold early
  cases hf : updateFlags w with
  | fault | fail => simp
  | go w1 =>
    rw [hf] at hflags
    simp only [Keeps, Work.accountSide, Prod.mk.injEq] at hflags
    obtain ⟨⟨hpart, haccounts, -, hlist, hnot⟩, -⟩ := hflags
    rw [← hpart, ← updatePart_eq_go, Stages.Outcome.bind_go]
    have hkeep := keeps_updatePart env w1
    cases hp : updatePart env w1 with
    | fault => simp
    | fail w2 c => simp
    | go w2 =>
      rw [hp] at hkeep
      simp only [Keeps, Work.accountSide, Prod.mk.injEq] at hkeep
      obtain ⟨⟨-, haccounts', -, hlist', hnot'⟩, -⟩ := hkeep
      rw [Stages.Outcome.bind_go, updateAccounts_eq_go, haccounts', haccounts]
      have hsame : ∀ accounts, (updateAccountList env.isAccountValid w2.resv accounts).2 =
          (updateAccountList env.isAccountValid w.resv accounts).2 :=
        updateAccountList_snd_congr (hlist'.trans hlist) (hnot'.trans hnot)
      simp [hsame]

/-- `user_not` after the features and the users. -/
def userNotIn (env : Env) (r : Reservation) (desc : ResvDesc) : Bool :=
  match desc.users with
  | none => r.userNot
  | some users => if desc.features.getD [] = [] then userNotAfter env.uidFromString r users else r.userNot

/-- The stages behind the licenses. -/
def rest (env : Env) (i : Nat) : Stage := fun w => ((updateFeatures w).bind (updateUsers env)).bind (late env i)

theorem late_fail (h : late env i w = .fail w' code) : IsError code ∧ w'.kept = w.kept := by
  have hkeep := keeps_late env i w
  rw [h] at hkeep
  exact ⟨hkeep.2, hkeep.1⟩

theorem users_fail (h : (updateUsers env w).bind (late env i) = .fail w' code) :
    IsError code ∧ w'.kept.2 = w.kept.2 ∧ w'.resv.userNot =
      match w.desc.users with
      | none => w.resv.userNot
      | some users => userNotAfter env.uidFromString w.resv users := by
  have hkept : ∀ {users r ok}, updateUidList env.uidFromString w.resv users = some (r, ok) →
      ({ w with resv := r } : Work).kept = (userNotAfter env.uidFromString w.resv users, w.kept.2) := by
    intro users r ok hl
    rw [updateUidList_eq hl]
    rfl
  revert h
  fun_cases updateUsers with
  | case1 hu =>
    intro h
    obtain ⟨hcode, hlate⟩ := late_fail h
    rw [hu]
    exact ⟨hcode, congrArg Prod.snd hlate, congrArg Prod.fst hlate⟩
  | case2 => exact nofun
  | case3 users hu r hl =>
    intro h
    obtain ⟨hcode, hlate⟩ := late_fail h
    rw [hkept hl] at hlate
    rw [hu]
    exact ⟨hcode, by rw [hlate], congrArg Prod.fst hlate⟩
  | case4 users hu r hl =>
    rintro ⟨⟩
    rw [hu]
    exact ⟨nofun, by rw [hkept hl], congrArg Prod.fst (hkept hl)⟩

/-- **Behind the licenses** a refusal gives an error code, and `user_not` is all that may differ. -/
theorem rest_fail (h : rest env i w = .fail w' code) :
    IsError code ∧ w'.kept.2 = w.kept.2 ∧ w'.resv.userNot = userNotIn env w.resv w.desc := by
  unfold userNotIn
  revert h
  unfold rest
  fun_cases updateFeatures with
  | case1 hf | case2 hf =>
    intro h
    have hu := users_fail h
    rw [hf]
    exact hu
  | case3 name hne hf =>
    rintro ⟨⟩
    refine ⟨nofun, rfl, ?_⟩
    cases w.desc.users with
    | none => rfl
    | some => exact (if_neg (by rw [hf]; exact hne)).symm

/-- The request gets behind the licenses. -/
def PassesLicenses (env : Env) (desc : ResvDesc) : Prop :=
  ∀ text, desc.licenses = some text → text ≠ [] → env.licenseValidate text ≠ none

/-- The request is not one to clear the licenses, or there are none and there are nodes. -/
def LicensesKept (r : Reservation) (desc : ResvDesc) : Prop :=
  desc.licenses = some [] → r.licenseList = none ∧ noNodes r desc = false

/-- If the request gets to the licenses, they are not cleared; and if it gets to the users, they leave `user_not`
    alone. -/
structure Harmless (env : Env) (r : Reservation) (desc : ResvDesc) : Prop where
  licenses : PassesEarly env r desc → LicensesKept r desc
  users : PassesEarly env r desc → PassesLicenses env desc → desc.features.getD [] = [] →
    ∀ users, desc.users = some users → UserNotKept env.uidFromString r users

theorem userNotIn_eq_iff (r : Reservation) (desc : ResvDesc) :
    userNotIn env r desc = r.userNot ↔
      (desc.features.getD [] = [] → ∀ users, desc.users = some users → UserNotKept env.uidFromString r users) := by
  unfold userNotIn
  cases desc.users with
  | none => simp
  | some users =>
    split_ifs with hf
    · simp [hf, userNotAfter_eq_iff]
    · simp [hf]

/-- What `update_failure` does not mend is in order. -/
def Mended (w w' : Work) (code : Option Err) : Prop :=
  IsError code ∧ w'.licensesFreed = false ∧ w'.resv.userNot = w.resv.userNot

theorem licenses_fail (hfreed : w.licensesFreed = false)
    (h : (updateLicenses env w).bind (rest env i) = .fail w' code) :
    w'.still = w.still ∧ (Mended w w' code ↔ LicensesKept w.resv w.desc ∧
      (PassesLicenses env w.desc → userNotIn env w.resv w.desc = w.resv.userNot)) := by
  unfold LicensesKept PassesLicenses
  revert h
  fun_cases updateLicenses with
  | case1 hl =>
    intro h
    obtain ⟨hcode, hkept, hnot⟩ := rest_fail h
    have hf : w'.licensesFreed = w.licensesFreed := congrArg Prod.fst hkept
    refine ⟨congrArg Prod.snd hkept, ?_⟩
    simp [Mended, hcode, hf, hfreed, hnot, hl]
  | case2 hl hn =>
    rintro ⟨⟩
    simp [Mended, IsError, hn, hl]
  | case3 hl hn =>
    intro h
    obtain ⟨hcode, hkept, hnot⟩ := rest_fail h
    have hf : w'.licensesFreed = (w.licensesFreed || w.resv.licenseList.isSome) := congrArg Prod.fst hkept
    refine ⟨congrArg Prod.snd hkept, ?_⟩
    have hsame : userNotIn env { w.resv with licenses := none } w.desc = userNotIn env w.resv w.desc := rfl
    rw [hsame] at hnot
    simp [Mended, hcode, hf, hfreed, hnot, hn, hl]
  | case4 text hne hl hv =>
    rintro ⟨⟩
    simp [Mended, IsError, hfreed, hv, hl, show text ≠ [] from hne]
  | case5 text hne hl list hv =>
    intro h
    obtain ⟨hcode, hkept, hnot⟩ := rest_fail h
    have hf : w'.licensesFreed = w.licensesFreed := congrArg Prod.fst hkept
    refine ⟨congrArg Prod.snd hkept, ?_⟩
    have hsame : userNotIn env { w.resv with licenses := some text, licenseList := list } w.desc =
      userNotIn env w.resv w.desc := rfl
    rw [hsame] at hnot
    simp [Mended, hcode, hf, hfreed, hnot, hv, hl, show text ≠ [] from hne]

theorem process_fail (hfreed : w.licensesFreed = false) (h : process env i w = .fail w' code) :
    w'.still = w.still ∧ (Mended w w' code ↔ Harmless env w.resv w.desc) := by
  have hprocess : process env i w = ((early env w).bind (updateLicenses env)).bind (rest env i) := by
    unfold process rest
    cases (early env w).bind (updateLicenses env) <;> rfl
  rw [hprocess] at h
  have hkeep := keeps_early env w
  have hpass := early_eq_go env w
  cases he : early env w with
  | fault =>
    rw [he] at h
    nomatch h
  | fail w1 c =>
    rw [he] at h hkeep hpass
    cases h
    simp only [Keeps, Work.kept, Prod.mk.injEq] at hkeep
    obtain ⟨⟨-, -, hnot, hf, hstill⟩, hcode⟩ := hkeep
    have hno : ¬PassesEarly env w.resv w.desc := by simpa using hpass
    exact ⟨hstill, iff_of_true ⟨hcode, hf.trans hfreed, hnot⟩ ⟨fun hp => absurd hp hno, fun hp => absurd hp hno⟩⟩
  | go w1 =>
    rw [he] at h hkeep hpass
    simp only [Keeps, Work.kept, Work.licenseSide, Work.userSide, Prod.mk.injEq] at hkeep
    obtain ⟨⟨hlic, hcnt, hnodes, hlist⟩, ⟨hfeat, husers, htext, huids⟩, hnot, hf, hstill⟩ := hkeep
    have hyes : PassesEarly env w.resv w.desc := hpass.1 ⟨w1, rfl⟩
    obtain ⟨hstill', hiff⟩ := licenses_fail (hf.trans hfreed) h
    refine ⟨hstill'.trans hstill, ?_⟩
    have hmended : Mended w w' code ↔ Mended w1 w' code := by rw [Mended, Mended, hnot]
    have hkept : LicensesKept w1.resv w1.desc ↔ LicensesKept w.resv w.desc := by
      simp only [LicensesKept, noNodes, hlic, hcnt, hnodes, hlist]
    have hpl : PassesLicenses env w1.desc ↔ PassesLicenses env w.desc := by simp only [PassesLicenses, hlic]
    have hu : userNotIn env w1.resv w1.desc = userNotIn env w.resv w.desc := by
      simp only [userNotIn, userNotAfter, clearsUsers, hfeat, husers, htext, huids, hnot]
    rw [hmended, hiff, hkept, hpl, hu, hnot, userNotIn_eq_iff]
    exact ⟨fun h => ⟨fun _ => h.1, fun _ => h.2⟩, fun h => ⟨h.licenses hyes, h.users hyes⟩⟩

/-- The update of `list` gets to `update_failure`, with the reservation at place `i`. -/
def EndsAtFailure (env : Env) (list : List Reservation) (desc : ResvDesc) (i : Nat) (r : Reservation) : Prop :=
  findResv list desc = .ok (i, r) ∧ copyResv r ≠ none ∧ ∃ w code, process env i ⟨list, r, desc, false⟩ = .fail w code

def ChangesNothing (env : Env) (list : List Reservation) (desc : ResvDesc) (i : Nat) (r : Reservation) : Prop :=
  ∃ list' code, updateResv env list desc = .failed list' (some code) ∧ list'[i]? = some r

theorem getElem?_of_findResv {list : List Reservation} {desc : ResvDesc} {r : Reservation}
    (h : findResv list desc = .ok (i, r)) : list[i]? = some r := by
  revert h
  fun_cases findResv with
  | case1 | case2 => exact nofun
  | case3 r i hf =>
    rintro ⟨⟩
    obtain ⟨name, -, hfind⟩ := bind_eq_some_iff.1 hf
    exact List.mem_zipIdx_iff_getElem?.1 (List.mem_of_find?_eq_some hfind)

theorem restoreResv_copy_eq_iff {r dest backup : Reservation} (hcopy : copyResv r = some backup)
    (he : dest.runEpilog = r.runEpilog) (hp : dest.runProlog = r.runProlog) :
    restoreResv dest backup = r ↔ r.licenseList.map listDup = r.licenseList ∧ dest.userNot = r.userNot := by
  obtain ⟨nodes, hnodes, rfl⟩ := map_eq_some_iff.1 hcopy
  constructor
  · intro h
    have hn := congrArg Reservation.userNot h
    exact ⟨congrArg Reservation.licenseList h, hn⟩
  · rintro ⟨hl, hn⟩
    have hcore : r.coreBitmap.map bitCopy = r.coreBitmap := by cases r.coreBitmap <;> rfl
    have hnode : some (bitCopy nodes) = r.nodeBitmap := hnodes.symm
    simp only [restoreResv, he, hp, hl, hn, hcore, hnode]

/-- **A refused update** gives an error code and leaves the reservation as it was exactly if the license list is
    equal to its copy, the licenses are not cleared and the users leave `user_not` alone. -/
theorem refused_update_changes_nothing_iff {env : Env} {list : List Reservation} {desc : ResvDesc} {i : Nat}
    {r : Reservation} (h : EndsAtFailure env list desc i r) :
    ChangesNothing env list desc i r ↔ r.licenseList.map listDup = r.licenseList ∧ Harmless env r desc := by
  obtain ⟨hfind, hcopy, w, code, hfail⟩ := h
  obtain ⟨backup, hbackup⟩ := ne_none_iff_exists'.1 hcopy
  obtain ⟨hstill, hmended⟩ := process_fail rfl hfail
  obtain ⟨hepilog, hrest⟩ := Prod.mk.inj hstill
  obtain ⟨hprolog, hlength⟩ := Prod.mk.inj hrest
  have hi : i < w.list.length := by
    rw [hlength]
    exact (List.getElem?_eq_some_iff.1 (getElem?_of_findResv hfind)).1
  have hupdate : updateResv env list desc = finish env i backup (.fail w code) := by
    unfold updateResv
    rw [hfind]
    dsimp only
    rw [hbackup, hfail]
  have hiff : restoreResv w.resv backup = r ↔ r.licenseList.map listDup = r.licenseList ∧ w.resv.userNot = r.userNot :=
    restoreResv_copy_eq_iff hbackup hepilog hprolog
  rw [← hmended]
  unfold ChangesNothing
  rw [hupdate, finish]
  cases hf : w.licensesFreed with
  | true => simp [Mended, hf]
  | false =>
    rw [if_neg (by simp)]
    constructor
    · rintro ⟨list', c, heq, hget⟩
      cases heq
      rw [List.getElem?_set_self hi] at hget
      obtain ⟨hl, hn⟩ := hiff.1 (some.inj hget)
      exact ⟨hl, nofun, hf, hn⟩
    · rintro ⟨hl, hcode, -, hn⟩
      obtain ⟨c, rfl⟩ := ne_none_iff_exists'.1 hcode
      refine ⟨_, c, rfl, ?_⟩
      rw [List.getElem?_set_self hi, hiff.2 ⟨hl, hn⟩]

def emptyEnv : Env where
  now := 0
  nodeRecordCount := 1
  findPartRecord _ := none
  partNodes _ := ⟨none, none⟩
  defaultPartLoc := none
  isAccountValid _ := false
  uidFromString _ := none
  licenseValidate _ := none
  nodeName2bitmap _ := none
  fewerNodes r _ := (r.nodeBitmap, r.nodeList)
  selectNodes _ _ _ := .error .nodesBusy
  jobOverlap _ _ _ := false
  cpus _ := 1
  assocs _ := (none, none)

def labResv (licenses : List License) : Reservation :=
  { newReservation "lab".toList with
    accounts := some "phys".toList
    accountList := ["phys".toList]
    fullNodes := true
    nodeBitmap := some (oneWord 0 0)
    licenseList := some licenses }

def featuresDesc : ResvDesc :=
  ⟨some "lab".toList, none, none, none, none, some "gpu".toList, none, none, none, none, none, none⟩

theorem lab_ends_at_failure (licenses : List License) :
    EndsAtFailure emptyEnv [labResv licenses] featuresDesc 0 (labResv licenses) :=
  ⟨rfl, nofun, _, _, rfl⟩

theorem refused_update_changes_nothing_iff_lab :
    ChangesNothing emptyEnv [labResv []] featuresDesc 0 (labResv []) :=
  (refused_update_changes_nothing_iff (lab_ends_at_failure [])).2
    ⟨rfl, fun _ => nofun, fun _ _ h => nomatch h⟩

/-- Four licenses are reserved before the request and none after it. -/
theorem reserved_licenses_lost :
    EndsAtFailure emptyEnv [labResv [⟨"matlab".toList, 4, 0⟩]] featuresDesc 0 (labResv [⟨"matlab".toList, 4, 0⟩]) ∧
      updateResv emptyEnv [labResv [⟨"matlab".toList, 4, 0⟩]] featuresDesc =
        .failed [labResv [⟨"matlab".toList, 0, 0⟩]] (some .notSupported) ∧
      ¬ChangesNothing emptyEnv [labResv [⟨"matlab".toList, 4, 0⟩]] featuresDesc 0
        (labResv [⟨"matlab".toList, 4, 0⟩]) := by
  have hupdate : updateResv emptyEnv [labResv [⟨"matlab".toList, 4, 0⟩]] featuresDesc =
      .failed [labResv [⟨"matlab".toList, 0, 0⟩]] (some .notSupported) := rfl
  refine ⟨lab_ends_at_failure _, hupdate, ?_⟩
  rintro ⟨list', code, heq, hget⟩
  obtain ⟨rfl, -⟩ := Result.failed.inj (hupdate.symm.trans heq)
  have hlist := congrArg Reservation.licenseList (some.inj hget)
  cases hlist

end Slurmpp.Resv
