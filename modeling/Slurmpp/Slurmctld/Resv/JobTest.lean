/-
  Which nodes a job can use, and when (`job_test_resv`).

  1. **One round** — `scan` goes through the reservations.  It ends early at one that blocks the job; otherwise the nodes
     left are those of no reservation of the time (`scan_through`).
  2. **Rounds** — if a reservation holds a node the job requires, the start is put off to its end, up to ten times; but
     the window of the job is not moved along with the start, so each round is like the first (`rounds_blocked`).
     `job_test_resv_right_iff` says for which jobs and reservations the answer is right nevertheless.
-/
import Slurmpp.Slurmctld.Resv.Record

namespace Slurmpp.Resv

open Bitstring Licenses List Option

/-! ## The model -/

inductive Rc
  | success
  | reservationInvalid
  | reservationAccess
  | invalidTimeValue
  | nodesBusy
deriving DecidableEq

inductive LicRc
  | success
  | eagain
  | error
deriving DecidableEq

structure PartRecord where
  maxTime : BitVec 32
  maxShare : BitVec 16

structure JobRecord where
  resvName : Option Text
  timeLimit : BitVec 32
  partPtr : Option PartRecord
  licenseList : Option (List License)
  beginTime : Int
  reqNodeBitmap : Option Bitstr
  shared : Bool

def noVal : BitVec 32 := 0xfffffffe

def infinite : BitVec 32 := 0xffffffff

def oneYear : BitVec 32 := 31536000

/-- `_get_job_duration`; a job without a limit takes that of its partition. -/
def getJobDuration (gang : Bool) (job : JobRecord) : Option (BitVec 32) :=
  let duration : Option (BitVec 32) :=
    if job.timeLimit = infinite then some oneYear
    else if job.timeLimit ≠ noVal then some (job.timeLimit * 60)
    else job.partPtr.map fun p => if p.maxTime = infinite then oneYear else p.maxTime * 60
  duration.map fun duration =>
    let timeSlices : BitVec 16 := job.partPtr.elim 1 (·.maxShare &&& 0x7fff)
    if duration ≠ oneYear ∧ 1 < timeSlices.toNat ∧ gang then duration * timeSlices.setWidth 32 else duration

def licenseListOverlap (list₁ list₂ : Option (List License)) : Bool :=
  match list₁, list₂ with
  | some l₁, some l₂ => l₁.any fun m => (find l₂ m.name).isSome
  | _, _ => false

/-- A reservation that is over moves on. -/
def current (now : Int) (r : Reservation) : Reservation := if r.endTime ≤ now then advanceResvTime r else r

/-- `bit_nset(node_bitmap, 0, node_record_count - 1)` -/
def setAll (nodes : Bitstr) (nodeRecordCount : Nat) : Option Bitstr :=
  if nodeRecordCount = 0 then none else bitNset nodes 0 (nodeRecordCount - 1)

/-- The variables of a round: `node_bitmap`, `exc_core_bitmap`, `lic_resv_time`, and the reservations that have
    been looked at. -/
structure Scan where
  nodes : Bitstr
  excCores : Option Bitstr
  licResvTime : Int
  seen : List Reservation

def blocks (job : JobRecord) (r : Reservation) (nodes : Bitstr) : Bool :=
  job.reqNodeBitmap.any (sharesNode · nodes) && (decide (r.cpuCnt = 0) || !job.shared)

/-- The loop over the reservations; with the end of the one that blocks the job if there is one. -/
def scan (now : Int) (job : JobRecord) (jobStart jobEnd : Int) :
    List Reservation → Scan → Option (Scan × Option Int)
  | [], s => some (s, none)
  | r₀ :: rest, s =>
    let r := current now r₀
    let s := { s with seen := s.seen ++ [r] }
    match r.nodeBitmap with
    | none => scan now job jobStart jobEnd rest s
    | some b =>
      if jobEnd ≤ r.startTime ∨ r.endTime ≤ jobStart then scan now job jobStart jobEnd rest s
      else if blocks job r b then some ({ s with seen := s.seen ++ rest }, some r.endTime)
      else
        let licResvTime :=
          if licenseListOverlap job.licenseList r.licenseList ∧ (s.licResvTime = 0 ∨ r.endTime < s.licResvTime) then
            r.endTime
          else s.licResvTime
        if r.fullNodes || !job.shared then
          (bitNot b).bind fun others => (bitAnd s.nodes others).bind fun nodes =>
            scan now job jobStart jobEnd rest { s with nodes := nodes, licResvTime := licResvTime }
        else
          r.coreBitmap.bind fun cores =>
            (match s.excCores with
              | none => some (bitCopy cores)
              | some exc => bitOr exc cores).bind fun exc =>
              scan now job jobStart jobEnd rest { s with excCores := some exc, licResvTime := licResvTime }

/-- What `job_test_resv` returns, and the reservations afterwards. -/
structure Answer where
  rc : Rc
  when : Int
  nodeBitmap : Option Bitstr
  excCores : Option Bitstr
  list : List Reservation

/-- `rc` and `*when` after a round. -/
def roundEnd (licenseJobTest : Int → LicRc) (jobStart : Int) (moveTime : Bool) (when : Int) (s : Scan) :
    Option Int → Rc × Int
  | some t => (.nodesBusy, t)
  | none =>
    if moveTime && decide (licenseJobTest jobStart = .eagain) then (.nodesBusy, s.licResvTime) else (.success, when)

/-- What is returned after the last round. -/
def answer (s : Scan) (rc : Rc) (when : Int) : Answer :=
  ⟨rc, when, if rc = .success then some s.nodes else none, s.excCores, s.seen⟩

/-- The rounds; `tries` more may follow. -/
def rounds (nodeRecordCount : Nat) (now : Int) (licenseJobTest : Int → LicRc) (job : JobRecord)
    (jobStart jobEnd : Int) (moveTime : Bool) :
    Nat → Int → List Reservation → Bitstr → Option Bitstr → Option Answer
  | 0, when, list, nodes, exc =>
    (scan now job jobStart jobEnd list ⟨nodes, exc, 0, []⟩).map fun (s, blocked) =>
      let (rc, when) := roundEnd licenseJobTest jobStart moveTime when s blocked
      answer s rc when
  | tries + 1, when, list, nodes, exc =>
    (scan now job jobStart jobEnd list ⟨nodes, exc, 0, []⟩).bind fun (s, blocked) =>
      let (rc, when) := roundEnd licenseJobTest jobStart moveTime when s blocked
      if rc = .success || !moveTime then some (answer s rc when)
      else
        -- retry for later start time
        (setAll s.nodes nodeRecordCount).bind fun nodes =>
          rounds nodeRecordCount now licenseJobTest job jobStart jobEnd moveTime tries when s.seen nodes s.excCores

/-- The branch of `job_test_resv` for a job without a reservation. -/
def jobTestNoResv (nodeRecordCount : Nat) (now : Int) (licenseJobTest : Int → LicRc) (job : JobRecord)
    (when jobEnd : Int) (moveTime : Bool) (list : List Reservation) (exc : Option Bitstr) : Option Answer :=
  (bitAlloc nodeRecordCount).bind fun nodes => (setAll nodes nodeRecordCount).bind fun nodes =>
    if list = [] then some ⟨.success, when, some nodes, exc, list⟩
    else rounds nodeRecordCount now licenseJobTest job when jobEnd moveTime 10 when list nodes exc

/-- Takes the nodes of the other reservations of the time off the reservation's own. -/
def withoutOthers (resv : Reservation) (jobStart jobEnd : Int) : List Reservation → Bitstr → Option Bitstr
  | [], nodes => some nodes
  | r :: rest, nodes =>
    match r.nodeBitmap with
    | none => withoutOthers resv jobStart jobEnd rest nodes
    | some b =>
      if resv.flags.maint || resv.flags.overlap || r.name = resv.name || decide (jobEnd ≤ r.startTime) ||
          decide (r.endTime ≤ jobStart) || !r.fullNodes then
        withoutOthers resv jobStart jobEnd rest nodes
      else
        (bitNot b).bind fun others => (bitAnd nodes others).bind fun nodes =>
          withoutOthers resv jobStart jobEnd rest nodes

/-- The branch for a job with a reservation; `access` is `_valid_job_access_resv`. -/
def jobTestOwnResv (nodeRecordCount : Nat) (now : Int) (access : Reservation → Bool) (job : JobRecord)
    (name : Text) (when jobEnd : Int) (list : List Reservation) (exc : Option Bitstr) : Option Answer :=
  match list.findIdx? (·.name = name) with
  | none => some ⟨.reservationInvalid, when, none, exc, list⟩
  | some i =>
    (list[i]?).bind fun resv₀ =>
      if !access resv₀ then some ⟨.reservationAccess, when, none, exc, list⟩
      else
        let resv := current now resv₀
        let list := list.set i resv
        if when < resv.startTime then some ⟨.invalidTimeValue, resv.startTime, none, exc, list⟩
        else if resv.nodeCnt = 0 ∧ !resv.flags.licOnly then some ⟨.invalidTimeValue, now + 600, none, exc, list⟩
        else if resv.endTime < when then some ⟨.reservationInvalid, resv.endTime, none, exc, list⟩
        else
          let covered : Option Bool := match job.reqNodeBitmap with
            | none => some true
            | some req => if resv.flags.licOnly then some true else resv.nodeBitmap.bind (bitSuperSet req ·)
          covered.bind fun covered =>
            if !covered then some ⟨.reservationInvalid, when, none, exc, list⟩
            else
              let nodes : Option Bitstr :=
                if resv.flags.licOnly then (bitAlloc nodeRecordCount).bind (setAll · nodeRecordCount)
                else resv.nodeBitmap.map bitCopy
              nodes.bind fun nodes => (withoutOthers resv when jobEnd list nodes).bind fun nodes =>
                (match resv.coreBitmap with
                  | none => some exc
                  | some cores => (bitNot (bitCopy cores)).map some).map fun exc =>
                  ⟨.success, when, some nodes, exc, list⟩

def jobTestResv (nodeRecordCount : Nat) (now : Int) (gang : Bool) (access : Reservation → Bool)
    (licenseJobTest : Int → LicRc) (job : JobRecord) (when : Int) (moveTime : Bool) (list : List Reservation)
    (exc : Option Bitstr) : Option Answer :=
  (getJobDuration gang job).bind fun duration =>
    match job.resvName with
    | some name => jobTestOwnResv nodeRecordCount now access job name when (when + duration.toNat) list exc
    | none =>
      jobTestNoResv nodeRecordCount now licenseJobTest job when (when + duration.toNat) moveTime list exc

/-! ## What is asked for -/

/-- The reservation and the time from `start` to `stop` have a time in common. -/
def Reservation.during (r : Reservation) (start stop : Int) : Bool :=
  decide (r.startTime < stop) && decide (start < r.endTime)

/-- The reservation holds node `i` at some time from `start` to `stop`. -/
def Reservation.holdsNode (r : Reservation) (start stop : Int) (i : Nat) : Bool :=
  r.during start stop && r.nodeBitmap.any (bitTest · i)

/-- The reservation holds a node the job requires. -/
def holdsRequired (job : JobRecord) (start stop : Int) (r : Reservation) : Bool :=
  r.during start stop && r.nodeBitmap.any fun b => job.reqNodeBitmap.any (sharesNode · b)

/-- It does, and the job is told so. -/
def blocked (job : JobRecord) (start stop : Int) (r : Reservation) : Bool :=
  holdsRequired job start stop r && (decide (r.cpuCnt = 0) || !job.shared)

/-- The start time at which no reservation holds a required node, after at most `n` postponements. -/
def leadsTo (job : JobRecord) (list : List Reservation) (duration : Int) : Nat → Int → Option Int
  | n, start =>
    match list.find? (holdsRequired job start (start + duration)) with
    | none => some start
    | some r =>
      match n with
      | 0 => none
      | n + 1 => leadsTo job list duration n r.endTime

/-- Reservations that do not recur and are for whole nodes, of a cluster with `n` nodes. -/
structure Plain (n : Nat) (list : List Reservation) : Prop where
  pos : 0 < n
  size : n ≤ 2 ^ 31 - 32
  once : ∀ r ∈ list, r.dayCnt = 0
  full : ∀ r ∈ list, r.fullNodes = true
  bits : ∀ r ∈ list, ∀ b ∈ r.nodeBitmap, b.bits = n

variable {n : Nat} {now start stop when : Int} {job : JobRecord} {list rest : List Reservation} {r : Reservation}
  {s : Scan} {nodes : Bitstr} {exc : Option Bitstr} {licenseJobTest : Int → LicRc} {moveTime : Bool}

theorem current_of_once (h : r.dayCnt = 0) : current now r = r := by
  rw [current, advanceResvTime_of_once h, ite_self]

theorem Plain.tail (h : Plain n (r :: rest)) : Plain n rest where
  pos := h.pos
  size := h.size
  once r hr := h.once r (mem_cons_of_mem _ hr)
  full r hr := h.full r (mem_cons_of_mem _ hr)
  bits r hr := h.bits r (mem_cons_of_mem _ hr)

/-! ## One round -/

/-- What a round leaves. -/
structure Scanned (n : Nat) (list : List Reservation) (s s' : Scan) : Prop where
  bits : s'.nodes.bits = n
  exc : s'.excCores = s.excCores
  seen : s'.seen = s.seen ++ list

theorem scan_cons (hlist : Plain n (r :: rest)) (hbits : s.nodes.bits = n) :
    (blocked job start stop r = true ∧ ∃ s', scan now job start stop (r :: rest) s = some (s', some r.endTime) ∧
      Scanned n (r :: rest) s s') ∨
    (blocked job start stop r = false ∧ ∃ s1, scan now job start stop (r :: rest) s = scan now job start stop rest s1 ∧
      Scanned n [r] s s1 ∧ ∀ i, bitTest s1.nodes i = (bitTest s.nodes i && !r.holdsNode start stop i)) := by
  rw [scan, current_of_once (hlist.once r mem_cons_self)]
  cases hb : r.nodeBitmap with
  | none =>
    refine .inr ⟨by simp [blocked, holdsRequired, hb], _, rfl, ⟨hbits, rfl, rfl⟩, fun i => ?_⟩
    simp [Reservation.holdsNode, hb]
  | some b =>
    dsimp only
    by_cases htime : stop ≤ r.startTime ∨ r.endTime ≤ start
    · have hduring : r.during start stop = false := by
        rw [Reservation.during, Bool.and_eq_false_iff, decide_eq_false_iff_not, decide_eq_false_iff_not]
        omega
      rw [if_pos htime]
      refine .inr ⟨by simp [blocked, holdsRequired, hduring], _, rfl, ⟨hbits, rfl, rfl⟩, fun i => ?_⟩
      simp [Reservation.holdsNode, hduring]
    · have hduring : r.during start stop = true := by
        rw [Reservation.during, Bool.and_eq_true, decide_eq_true_iff, decide_eq_true_iff]
        omega
      have hsame : blocks job r b = blocked job start stop r := by
        simp [blocks, blocked, holdsRequired, hduring, hb]
      rw [if_neg htime, hsame]
      cases hblocked : blocked job start stop r with
      | true => exact .inl ⟨rfl, _, rfl, hbits, rfl, by simp⟩
      | false =>
        have hsize := hlist.size
        obtain ⟨others, nodes, hnot, hand⟩ := exists_without
          (hbits.trans (hlist.bits r mem_cons_self b hb).symm) (by omega)
        obtain ⟨hbits', htest⟩ := without_eq_some hnot hand
        rw [if_neg (by decide), hlist.full r mem_cons_self, Bool.true_or, if_pos rfl, hnot, bind_some,
          hand, bind_some]
        refine .inr ⟨rfl, _, rfl, ⟨hbits'.trans hbits, rfl, rfl⟩, fun i => ?_⟩
        simp [Reservation.holdsNode, hduring, hb, htest]

theorem Scanned.trans {s s1 s' : Scan} (h : Scanned n [r] s s1) (h' : Scanned n rest s1 s') :
    Scanned n (r :: rest) s s' :=
  ⟨h'.bits, h'.exc.trans h.exc, by rw [h'.seen, h.seen, append_assoc]; rfl⟩

theorem scan_blocked (hlist : Plain n list) (hbits : s.nodes.bits = n)
    (hblocked : list.any (blocked job start stop) = true) :
    ∃ s' t, scan now job start stop list s = some (s', some t) ∧ Scanned n list s s' := by
  induction list generalizing s with
  | nil => cases hblocked
  | cons r rest ih =>
    obtain ⟨-, s', hscan, hs'⟩ | ⟨hnot, s1, hscan, hs1, -⟩ := scan_cons hlist hbits
    · exact ⟨s', r.endTime, hscan, hs'⟩
    · rw [any_cons, hnot, Bool.false_or] at hblocked
      obtain ⟨s', t, hrest, hs'⟩ := ih hlist.tail hs1.bits hblocked
      exact ⟨s', t, hscan.trans hrest, hs1.trans hs'⟩

/-- **A round that goes through** leaves the nodes that no reservation holds. -/
theorem scan_through (now : Int) (hlist : Plain n list) (hbits : s.nodes.bits = n)
    (hfree : list.any (blocked job start stop) = false) :
    ∃ s', scan now job start stop list s = some (s', none) ∧ Scanned n list s s' ∧
      ∀ i, bitTest s'.nodes i = (bitTest s.nodes i && !list.any (·.holdsNode start stop i)) := by
  induction list generalizing s with
  | nil => exact ⟨s, rfl, ⟨hbits, rfl, by simp⟩, by simp⟩
  | cons r rest ih =>
    rw [any_cons, Bool.or_eq_false_iff] at hfree
    obtain ⟨hyes, -⟩ | ⟨-, s1, hscan, hs1, htest1⟩ := scan_cons hlist hbits
    · rw [hfree.1] at hyes
      cases hyes
    · obtain ⟨s', hrest, hs', htest⟩ := ih hlist.tail hs1.bits hfree.2
      refine ⟨s', hscan.trans hrest, hs1.trans hs', fun i => ?_⟩
      rw [htest, htest1, any_cons, Bool.not_or, Bool.and_assoc]

/-! ## Rounds -/

theorem exists_setAll (hn : 0 < n) (hbits : nodes.bits = n) :
    ∃ nodes', setAll nodes n = some nodes' ∧ nodes'.bits = n ∧ ∀ i < n, bitTest nodes' i = true := by
  obtain ⟨nodes', hset, hfill⟩ := nfill_eq true (by omega : 0 < nodes.bits) (by omega : n - 1 < nodes.bits)
  refine ⟨nodes', by rw [setAll, if_neg hn.ne']; exact hset, hfill.bits.trans hbits, fun i hi => ?_⟩
  rw [hfill.test, if_pos (by omega)]

/-- **Each round is like the first**: the window of the job does not move.  So what ends the first round with
    `ESLURM_NODES_BUSY` ends all of them with it. -/
theorem rounds_busy (hlist : Plain n list)
    (hscan : ∀ {nodes : Bitstr} (exc : Option Bitstr) (when : Int), nodes.bits = n → ∃ s' b t,
      scan now job start stop list ⟨nodes, exc, 0, []⟩ = some (s', b) ∧ Scanned n list ⟨nodes, exc, 0, []⟩ s' ∧
        roundEnd licenseJobTest start moveTime when s' b = (.nodesBusy, t))
    (when : Int) (exc : Option Bitstr) (hbits : nodes.bits = n) (tries : Nat) :
    ∃ a, rounds n now licenseJobTest job start stop moveTime tries when list nodes exc = some a ∧
      a.rc = .nodesBusy := by
  induction tries generalizing when nodes exc with
  | zero =>
    obtain ⟨s', b, t, hscan, -, hend⟩ := hscan exc when hbits
    refine ⟨answer s' .nodesBusy t, ?_, rfl⟩
    rw [rounds, hscan, map_some]
    dsimp only
    rw [hend]
  | succ tries ih =>
    obtain ⟨s', b, t, hscan, hs', hend⟩ := hscan exc when hbits
    have hseen : s'.seen = list := hs'.seen.trans (nil_append list)
    rw [rounds, hscan, bind_some]
    dsimp only
    rw [hend]
    cases moveTime with
    | false => exact ⟨answer s' .nodesBusy t, rfl, rfl⟩
    | true =>
      obtain ⟨nodes', hset, hbits', -⟩ := exists_setAll hlist.pos hs'.bits
      obtain ⟨a, ha, hrc⟩ := ih t s'.excCores hbits'
      refine ⟨a, ?_, hrc⟩
      rw [if_neg (by simp), hset, bind_some, hseen]
      exact ha

theorem rounds_blocked (hlist : Plain n list) (hbits : nodes.bits = n)
    (hblocked : list.any (blocked job start stop) = true) (tries : Nat) :
    ∃ a, rounds n now licenseJobTest job start stop moveTime tries when list nodes exc = some a ∧
      a.rc = .nodesBusy := by
  refine rounds_busy hlist (fun {nodes} exc when hbits => ?_) when exc hbits tries
  obtain ⟨s', t, hscan, hs'⟩ := scan_blocked (s := ⟨nodes, exc, 0, []⟩) hlist hbits hblocked
  exact ⟨s', some t, t, hscan, hs', rfl⟩

theorem rounds_eagain (hlist : Plain n list) (hbits : nodes.bits = n)
    (hfree : list.any (blocked job start stop) = false) (tries : Nat) (hlic : licenseJobTest start = .eagain) :
    ∃ a, rounds n now licenseJobTest job start stop true tries when list nodes exc = some a ∧ a.rc = .nodesBusy := by
  refine rounds_busy hlist (fun {nodes} exc when hbits => ?_) when exc hbits tries
  obtain ⟨s', hscan, hs', -⟩ := scan_through (s := ⟨nodes, exc, 0, []⟩) now hlist hbits hfree
  exact ⟨s', none, s'.licResvTime, hscan, hs', by simp [roundEnd, hlic]⟩

/-- **A first round that goes through** is the only one, licenses aside. -/
theorem rounds_through (now when : Int) (exc : Option Bitstr) (hlist : Plain n list) (hbits : nodes.bits = n)
    (hfree : list.any (blocked job start stop) = false) (tries : Nat)
    (hlic : moveTime = true → licenseJobTest start ≠ .eagain) :
    ∃ a nodes', rounds n now licenseJobTest job start stop moveTime tries when list nodes exc = some a ∧
      a.rc = .success ∧ a.when = when ∧ a.nodeBitmap = some nodes' ∧
      ∀ i, bitTest nodes' i = (bitTest nodes i && !list.any (·.holdsNode start stop i)) := by
  obtain ⟨s', hscan, -, htest⟩ := scan_through (s := ⟨nodes, exc, 0, []⟩) now hlist hbits hfree
  have hpass : (moveTime && decide (licenseJobTest start = .eagain)) = false := by
    cases moveTime with
    | false => rfl
    | true => simpa using hlic rfl
  have hend : roundEnd licenseJobTest start moveTime when s' none = (.success, when) := by
    rw [roundEnd, hpass, if_neg (by decide)]
  refine ⟨answer s' .success when, s'.nodes, ?_, rfl, rfl, rfl, htest⟩
  cases tries with
  | zero =>
    rw [rounds, hscan, map_some]
    dsimp only
    rw [hend]
  | succ tries =>
    rw [rounds, hscan, bind_some]
    dsimp only
    rw [hend]
    rfl

/-! ## The answer -/

variable {gang : Bool} {access : Reservation → Bool} {duration : BitVec 32} {tries : Nat} {w : Int}

/-- What a job without a reservation should be told.  With `SLURM_SUCCESS`: nodes that no reservation holds while
    it runs, and among them all it requires.  And with `move_time`: `SLURM_SUCCESS` at the start time to which at
    most ten postponements lead, licenses aside. -/
structure Right (licenseJobTest : Int → LicRc) (job : JobRecord) (list : List Reservation) (duration : BitVec 32)
    (when : Int) (moveTime : Bool) (result : Option Answer) : Prop where
  unreserved : ∀ a, result = some a → a.rc = .success → ∃ nodes, a.nodeBitmap = some nodes ∧
    ∀ i, list.any (·.holdsNode a.when (a.when + duration.toNat) i) = true → bitTest nodes i = false
  required : ∀ a, result = some a → a.rc = .success → ∃ nodes, a.nodeBitmap = some nodes ∧
    ∀ req, job.reqNodeBitmap = some req → ∀ i < req.bits, bitTest req i = true → bitTest nodes i = true
  found : moveTime = true → (∀ t, licenseJobTest t ≠ .eagain) →
    ∀ w, leadsTo job list duration.toNat 10 when = some w → ∃ a, result = some a ∧ a.rc = .success ∧ a.when = w

/-- No reservation holds a required node.  Or the job is told that one does, and no ten postponements would help.
    Or it is put off for licenses. -/
def RightWhen (licenseJobTest : Int → LicRc) (job : JobRecord) (list : List Reservation) (duration : BitVec 32)
    (when : Int) (moveTime : Bool) : Prop :=
  list.any (holdsRequired job when (when + duration.toNat)) = false ∨
  (list.any (blocked job when (when + duration.toNat)) = true ∧
    (moveTime = true → (∀ t, licenseJobTest t ≠ .eagain) → leadsTo job list duration.toNat 10 when = none)) ∨
  (list.any (blocked job when (when + duration.toNat)) = false ∧ moveTime = true ∧ licenseJobTest when = .eagain)

theorem holdsRequired_iff {start stop : Int} : holdsRequired job start stop r = true ↔
    ∃ req, job.reqNodeBitmap = some req ∧ ∃ i < req.bits, bitTest req i = true ∧ r.holdsNode start stop i = true := by
  simp only [holdsRequired, Reservation.holdsNode, Bool.and_eq_true, Option.any_eq_true, sharesNode_iff]
  constructor
  · rintro ⟨hd, b, hb, req, hreq, i, hi, hri, hbi⟩
    exact ⟨req, hreq, i, hi, hri, hd, b, hb, hbi⟩
  · rintro ⟨req, hreq, i, hi, hri, hd, b, hb, hbi⟩
    exact ⟨hd, b, hb, req, hreq, i, hi, hri, hbi⟩

theorem any_blocked_le {start stop : Int} (h : list.any (blocked job start stop) = true) :
    list.any (holdsRequired job start stop) = true := by
  rw [List.any_eq_true] at h ⊢
  obtain ⟨r, hr, hb⟩ := h
  exact ⟨r, hr, (Bool.and_eq_true_iff.1 hb).1⟩

theorem leadsTo_of_free {d : Int} (h : list.any (holdsRequired job when (when + d)) = false) :
    leadsTo job list d tries when = some when := by
  have hnone : list.find? (holdsRequired job when (when + d)) = none := by
    rw [find?_eq_none]
    rw [List.any_eq_false] at h
    exact h
  unfold leadsTo
  rw [hnone]

theorem jobTestNoResv_through (hlist : Plain n list) (hfree : list.any (blocked job when stop) = false)
    (hlic : list ≠ [] → moveTime = true → licenseJobTest when ≠ .eagain) :
    ∃ a nodes, jobTestNoResv n now licenseJobTest job when stop moveTime list exc = some a ∧ a.rc = .success ∧
      a.when = when ∧ a.nodeBitmap = some nodes ∧
      (∀ i, list.any (·.holdsNode when stop i) = true → bitTest nodes i = false) ∧
      ∀ i < n, list.any (·.holdsNode when stop i) = false → bitTest nodes i = true := by
  have hsize := hlist.size
  obtain ⟨nodes0, halloc⟩ : ∃ nodes0, bitAlloc n = some nodes0 := ⟨_, dif_pos (by omega)⟩
  obtain ⟨nodes, hset, hbits, hall⟩ := exists_setAll hlist.pos (bits_bitAlloc halloc)
  by_cases hempty : list = []
  · subst hempty
    refine ⟨⟨.success, when, some nodes, exc, []⟩, nodes, ?_, rfl, rfl, rfl, by simp, fun i hi _ => hall i hi⟩
    rw [jobTestNoResv, halloc, bind_some, hset, bind_some, if_pos rfl]
  · obtain ⟨a, nodes', hrounds, hrc, hwhen, hnodes, htest⟩ := rounds_through now when exc
      hlist hbits hfree 10 (hlic hempty)
    refine ⟨a, nodes', ?_, hrc, hwhen, hnodes, fun i hheld => ?_, fun i hi hheld => ?_⟩
    · rw [jobTestNoResv, halloc, bind_some, hset, bind_some, if_neg hempty]
      exact hrounds
    · rw [htest, hheld, Bool.not_true, Bool.and_false]
    · rw [htest, hall i hi, hheld]
      rfl

theorem jobTestNoResv_busy (hlist : Plain n list) (hne : list ≠ [])
    (hrounds : ∀ nodes : Bitstr, nodes.bits = n → ∃ a,
      rounds n now licenseJobTest job when stop moveTime 10 when list nodes exc = some a ∧ a.rc = .nodesBusy) :
    ∃ a, jobTestNoResv n now licenseJobTest job when stop moveTime list exc = some a ∧ a.rc = .nodesBusy := by
  have hsize := hlist.size
  obtain ⟨nodes0, halloc⟩ : ∃ nodes0, bitAlloc n = some nodes0 := ⟨_, dif_pos (by omega)⟩
  obtain ⟨nodes, hset, hbits, -⟩ := exists_setAll hlist.pos (bits_bitAlloc halloc)
  rw [jobTestNoResv, halloc, bind_some, hset, bind_some, if_neg hne]
  exact hrounds nodes hbits

theorem right_of_busy {a : Answer} (hrc : a.rc = .nodesBusy)
    (hfound : moveTime = true → (∀ t, licenseJobTest t ≠ .eagain) → leadsTo job list duration.toNat 10 when = none) :
    Right licenseJobTest job list duration when moveTime (some a) := by
  have hno : ∀ a', some a = some a' → a'.rc ≠ .success := by
    rintro a' heq
    cases heq
    rw [hrc]
    decide
  refine ⟨fun a' heq hs => absurd hs (hno a' heq), fun a' heq hs => absurd hs (hno a' heq), fun hmove hlic w hw => ?_⟩
  rw [hfound hmove hlic] at hw
  cases hw

theorem right_of_free (hlist : Plain n list) (hreq : ∀ req ∈ job.reqNodeBitmap, req.bits = n)
    (hfree : list.any (holdsRequired job when (when + duration.toNat)) = false) :
    Right licenseJobTest job list duration when moveTime
      (jobTestNoResv n now licenseJobTest job when (when + duration.toNat) moveTime list exc) := by
  have hblocked : list.any (blocked job when (when + duration.toNat)) = false := by
    refine Bool.eq_false_iff.2 fun hb => ?_
    rw [any_blocked_le hb] at hfree
    cases hfree
  by_cases hput : list ≠ [] ∧ moveTime = true ∧ licenseJobTest when = .eagain
  · obtain ⟨hne, rfl, hlic⟩ := hput
    obtain ⟨a, ha, hrc⟩ := jobTestNoResv_busy hlist hne fun nodes hbits =>
      rounds_eagain hlist hbits hblocked 10 hlic
    rw [ha]
    exact right_of_busy hrc fun _ hall => absurd hlic (hall when)
  · obtain ⟨a, nodes, ha, hrc, hwhen, hnodes, hheld, hfreeNode⟩ := jobTestNoResv_through
      hlist hblocked fun hne hmove hlic => hput ⟨hne, hmove, hlic⟩
    rw [ha]
    refine ⟨fun a' heq _ => ?_, fun a' heq _ => ?_, fun _ _ w hw => ?_⟩
    · cases heq
      refine ⟨nodes, hnodes, ?_⟩
      rw [hwhen]
      exact hheld
    · cases heq
      refine ⟨nodes, hnodes, fun req hjob i hi hri => hfreeNode i ?_ ?_⟩
      · rw [← hreq req hjob]
        exact hi
      · refine Bool.eq_false_iff.2 fun hany => ?_
        obtain ⟨r, hr, hnode⟩ := any_eq_true.1 hany
        exact any_eq_false.1 hfree r hr (holdsRequired_iff.2 ⟨req, hjob, i, hi, hri, hnode⟩)
    · rw [leadsTo_of_free hfree, some.injEq] at hw
      exact ⟨a, rfl, hrc, hwhen.trans hw⟩

/-- **When the answer of `job_test_resv` is right**, for a job without a reservation and any reservations of whole
    nodes that do not recur. -/
theorem job_test_resv_right_iff (hlist : Plain n list) (hreq : ∀ req ∈ job.reqNodeBitmap, req.bits = n)
    (hresv : job.resvName = none) (hdur : getJobDuration gang job = some duration) :
    Right licenseJobTest job list duration when moveTime
        (jobTestResv n now gang access licenseJobTest job when moveTime list exc) ↔
      RightWhen licenseJobTest job list duration when moveTime := by
  rw [jobTestResv, hdur, bind_some, hresv]
  by_cases hfree : list.any (holdsRequired job when (when + duration.toNat)) = false
  · exact ⟨fun _ => .inl hfree, fun _ => right_of_free hlist hreq hfree⟩
  have hheld : list.any (holdsRequired job when (when + duration.toNat)) = true := by simpa using hfree
  have hne : list ≠ [] := by
    rintro rfl
    cases hheld
  cases hblocked : list.any (blocked job when (when + duration.toNat)) with
  | true =>
    obtain ⟨a, ha, hrc⟩ := jobTestNoResv_busy hlist hne fun nodes hbits =>
      rounds_blocked hlist hbits hblocked 10
    rw [ha]
    constructor
    · intro hright
      refine .inr (.inl ⟨hblocked, fun hmove hlic => ?_⟩)
      by_contra hsome
      obtain ⟨w, hw⟩ := ne_none_iff_exists'.1 hsome
      obtain ⟨a', heq, hsuccess, -⟩ := hright.found hmove hlic w hw
      cases heq
      rw [hrc] at hsuccess
      cases hsuccess
    · rintro (hno | ⟨-, hnone⟩ | ⟨hno, -⟩)
      · exact absurd hno hfree
      · exact right_of_busy hrc hnone
      · rw [hblocked] at hno
        cases hno
  | false =>
    by_cases hput : moveTime = true ∧ licenseJobTest when = .eagain
    · obtain ⟨rfl, hlic⟩ := hput
      obtain ⟨a, ha, hrc⟩ := jobTestNoResv_busy hlist hne fun nodes hbits =>
        rounds_eagain hlist hbits hblocked 10 hlic
      rw [ha]
      exact ⟨fun _ => .inr (.inr ⟨hblocked, rfl, hlic⟩),
        fun _ => right_of_busy hrc fun _ hall => absurd hlic (hall when)⟩
    · -- the job shares its nodes, and a required one is taken off
      obtain ⟨a, nodes, ha, hrc, hwhen, hnodes, hgone, -⟩ := jobTestNoResv_through
        hlist hblocked fun _ hmove hlic => hput ⟨hmove, hlic⟩
      rw [ha]
      constructor
      · intro hright
        obtain ⟨r, hr, hrequired⟩ := any_eq_true.1 hheld
        obtain ⟨req, hjob, i, hi, hri, hnode⟩ := holdsRequired_iff.1 hrequired
        obtain ⟨nodes', hnodes', hall⟩ := hright.required a rfl hrc
        cases hnodes.symm.trans hnodes'
        have htrue := hall req hjob i hi hri
        rw [hgone i (any_eq_true.2 ⟨r, hr, hnode⟩)] at htrue
        cases htrue
      · rintro (hno | ⟨hno, -⟩ | ⟨-, hyes⟩)
        · exact absurd hno hfree
        · rw [hblocked] at hno
          cases hno
        · exact absurd hyes hput

def firstNode : Reservation :=
  { newReservation [] with
    nodeBitmap := some (oneWord 2 1), fullNodes := true, cpuCnt := 4, nodeCnt := 1, startTime := 100,
    startTimeFirst := 100, endTime := 200 }

/-- A job of one minute that requires node `i` of two. -/
def minuteJob (i : Nat) : JobRecord := ⟨none, 1, none, none, 0, some (oneWord 2 (BitVec.ofNat 32 (2 ^ i))), false⟩

theorem plain_firstNode : Plain 2 [firstNode] := by
  refine ⟨by decide, by decide, ?_, ?_, ?_⟩ <;> rintro r hr <;> obtain rfl := mem_singleton.1 hr
  · rfl
  · rfl
  · rintro b hb
    cases hb
    rfl

theorem job_test_resv_right_iff_two : Right (fun _ => .success) (minuteJob 1) [firstNode] 60 150 true
    (jobTestResv 2 0 false (fun _ => true) (fun _ => .success) (minuteJob 1) 150 true [firstNode] none) := by
  refine (job_test_resv_right_iff plain_firstNode ?_ rfl rfl).2 (.inl (by decide))
  rintro req hreq
  cases hreq
  rfl

/-- **The start does not move.**  The job requires the reserved node; one postponement, to 200, would do. -/
theorem postponed_start_not_tried : leadsTo (minuteJob 0) [firstNode] 60 10 150 = some 200 ∧
    (jobTestResv 2 0 false (fun _ => true) (fun _ => .success) (minuteJob 0) 150 true [firstNode] none).map
      (fun a => (a.rc, a.when)) = some (.nodesBusy, 200) := by
  constructor <;> decide

end Slurmpp.Resv
