/-
  Reservations (`slurmctld_resv_t` and the two functions of `src/slurmctld/reservation.c` that move a recurring
  reservation to its next time).

  A reservation that is daily or weekly has one pair of times, those of its next occurrence.  When it is over,
  `_advance_resv_time` adds a day or a week to both.  Days have 86400 seconds here; changes of the clock are
  not modelled.
-/
import Slurmpp.Common.Bitstring
import Slurmpp.Slurmctld.Licenses

namespace Slurmpp.Resv

open Bitstring Licenses

/-- The `RESERVE_FLAG_*` of a reservation. -/
structure Flags where
  maint : Bool
  overlap : Bool
  ignJobs : Bool
  daily : Bool
  weekly : Bool
  licOnly : Bool
  static : Bool
  partNodes : Bool
  specNodes : Bool
deriving DecidableEq

def noFlags : Flags := ⟨false, false, false, false, false, false, false, false, false⟩

/-- `slurmctld_resv_t`; `account_cnt` and `user_cnt` are the lengths of the lists, and a pointer to a partition
    is a number. -/
structure Reservation where
  accounts : Option Text
  accountList : List Text
  accountNot : Bool
  assocList : Option Text
  cpuCnt : BitVec 32
  coreBitmap : Option Bitstr
  duration : BitVec 32
  endTime : Int
  features : Option Text
  flags : Flags
  fullNodes : Bool
  jobPendCnt : BitVec 32
  jobRunCnt : BitVec 32
  licenseList : Option (List License)
  licenses : Option Text
  maintSetNode : Bool
  name : Text
  nodeBitmap : Option Bitstr
  nodeCnt : BitVec 32
  nodeList : Option Text
  part : Option Text
  partPtr : Option Nat
  resvId : BitVec 32
  runEpilog : Bool
  runProlog : Bool
  startTime : Int
  startTimeFirst : Int
  startTimePrev : Int
  users : Option Text
  userList : List (BitVec 32)
  userNot : Bool
deriving DecidableEq

/-- A record from `xmalloc` with a name. -/
def newReservation (name : Text) : Reservation where
  accounts := none
  accountList := []
  accountNot := false
  assocList := none
  cpuCnt := 0
  coreBitmap := none
  duration := 0
  endTime := 0
  features := none
  flags := noFlags
  fullNodes := false
  jobPendCnt := 0
  jobRunCnt := 0
  licenseList := none
  licenses := none
  maintSetNode := false
  name := name
  nodeBitmap := none
  nodeCnt := 0
  nodeList := none
  part := none
  partPtr := none
  resvId := 0
  runEpilog := false
  runProlog := false
  startTime := 0
  startTimeFirst := 0
  startTimePrev := 0
  users := none
  userList := []
  userNot := false

def advanceTime (t : Int) (dayCnt : Nat) : Int := t + 86400 * dayCnt

/-- `day_cnt` in `_advance_resv_time`. -/
def Reservation.dayCnt (r : Reservation) : Nat := if r.flags.daily then 1 else if r.flags.weekly then 7 else 0

def advanceResvTime (r : Reservation) : Reservation :=
  if r.dayCnt = 0 then r
  else
    let start := advanceTime r.startTimeFirst r.dayCnt
    { r with
      startTime := start, startTimePrev := start, startTimeFirst := start,
      endTime := advanceTime r.endTime r.dayCnt }

/-- `bit_overlap` is not zero. -/
def sharesNode (b₁ b₂ : Bitstr) : Bool := (List.range b₁.bits).any fun i => bitTest b₁ i && bitTest b₂ i

theorem sharesNode_iff {b₁ b₂ : Bitstr} :
    sharesNode b₁ b₂ = true ↔ ∃ i < b₁.bits, bitTest b₁ i = true ∧ bitTest b₂ i = true := by
  simp [sharesNode]

/-- The seconds from one occurrence to the next; zero for a reservation that does not recur. -/
def Reservation.period (r : Reservation) : Int := 86400 * r.dayCnt

/-- Occurrence `k`: its start and its end. -/
def Reservation.occurrence (r : Reservation) (k : Nat) : Int × Int :=
  (r.startTime + k * r.period, r.endTime + k * r.period)

theorem advanceResvTime_of_once {r : Reservation} (h : r.dayCnt = 0) : advanceResvTime r = r := if_pos h

/-- **Moving on drops the first occurrence.** -/
theorem occurrence_advanceResvTime {r : Reservation} (h : r.startTimeFirst = r.startTime) (k : Nat) :
    (advanceResvTime r).occurrence k = r.occurrence (k + 1) := by
  by_cases hd : r.dayCnt = 0
  · rw [advanceResvTime_of_once hd]
    simp [Reservation.occurrence, Reservation.period, hd]
  · have hp : (advanceResvTime r).period = r.period := by
      unfold advanceResvTime
      rw [if_neg hd]
      rfl
    have hs : (advanceResvTime r).startTime = r.startTime + r.period := by
      unfold advanceResvTime
      rw [if_neg hd]
      show advanceTime r.startTimeFirst r.dayCnt = _
      rw [h]
      rfl
    have he : (advanceResvTime r).endTime = r.endTime + r.period := by
      unfold advanceResvTime
      rw [if_neg hd]
      rfl
    rw [Reservation.occurrence, Reservation.occurrence, hp, hs, he]
    push_cast
    ring_nf

end Slurmpp.Resv
