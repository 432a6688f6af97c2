/-
  Whether a reservation would overlap another (`_resv_overlap`).

  The test looks forward one week: it compares the times of both reservations, and for a daily one those of
  the next six days as well.

  1. **The test** — it finds exactly the overlaps of occurrences that begin less than a week after the times
     the two reservations have (`meets_iff`).  A weekly reservation has one such occurrence.

  2. **Runs** — of two reservations that were both accepted and share a node, no two such occurrences overlap
     (`accepted_apart_for_a_week`); what comes after the week is not looked at (`daily_meets_later`).
-/
import Slurmpp.Slurmctld.Resv.Record

namespace Slurmpp.Resv

open Bitstring List Bool

/-! ## The model -/

/-- The days the loops of `_resv_overlap` look at. -/
def lookDays (daily : Bool) : List Nat := if daily then range 7 else [0]

/-- The two loops over days. -/
def meets (startTime endTime : Int) (flags : Flags) (r : Reservation) : Bool :=
  (lookDays flags.daily).any fun i => (lookDays r.flags.daily).any fun j =>
    decide (advanceTime startTime i < advanceTime r.endTime j) &&
      decide (advanceTime r.startTime j < advanceTime endTime i)

/-- `_resv_overlap`; `this` is the place of the reservation itself in the list. -/
def resvOverlap (list : List Reservation) (startTime endTime : Int) (flags : Flags) (nodeBitmap : Option Bitstr)
    (this : Option Nat) : Bool :=
  match nodeBitmap with
  | none => false
  | some nodes =>
    if flags.maint || flags.overlap then false
    else list.zipIdx.any fun (r, i) =>
      this != some i && r.nodeBitmap.any (sharesNode · nodes) && r.fullNodes && meets startTime endTime flags r

/-! ## The test -/

def week : Int := 604800

def Meet (a b : Int × Int) : Prop := a.1 < b.2 ∧ b.1 < a.2

/-- Occurrence `k` begins less than a week after the first. -/
def Reservation.Within (r : Reservation) (k : Nat) : Prop := k * r.period < week

instance (a b : Int × Int) : Decidable (Meet a b) := inferInstanceAs (Decidable (_ ∧ _))

instance (r : Reservation) (k : Nat) : Decidable (r.Within k) := inferInstanceAs (Decidable (_ < _))

variable {r r' : Reservation} {k m n : Nat}

theorem within_iff (a : Int × Int) :
    (∃ k, r.Within k ∧ r.occurrence k = a) ↔
      ∃ i ∈ lookDays r.flags.daily, (advanceTime r.startTime i, advanceTime r.endTime i) = a := by
  have hday : ∀ k : Nat, r.flags.daily = true → (r.Within k ↔ k < 7) ∧
      r.occurrence k = (advanceTime r.startTime k, advanceTime r.endTime k) := fun k hd => by
    have hp : r.period = 86400 := by simp [Reservation.period, Reservation.dayCnt, hd]
    refine ⟨?_, ?_⟩
    · rw [Reservation.Within, hp, week]
      omega
    · rw [Reservation.occurrence, hp, advanceTime, advanceTime, Int.mul_comm]
  have hother : ∀ k : Nat, r.flags.daily = false → r.Within k → r.occurrence k = r.occurrence 0 := fun k hd hk => by
    cases hw : r.flags.weekly with
    | false => simp [Reservation.occurrence, Reservation.period, Reservation.dayCnt, hd, hw]
    | true =>
      have hp : r.period = 604800 := by simp [Reservation.period, Reservation.dayCnt, hd, hw]
      rw [Reservation.Within, hp, week] at hk
      obtain rfl : k = 0 := by omega
      rfl
  have hzero : r.occurrence 0 = (advanceTime r.startTime 0, advanceTime r.endTime 0) := by
    simp [Reservation.occurrence, advanceTime]
  cases hd : r.flags.daily with
  | true =>
    simp only [lookDays, if_true, mem_range]
    constructor
    · rintro ⟨k, hk, rfl⟩
      exact ⟨k, (hday k hd).1.1 hk, (hday k hd).2.symm⟩
    · rintro ⟨k, hk, rfl⟩
      exact ⟨k, (hday k hd).1.2 hk, (hday k hd).2⟩
  | false =>
    simp only [lookDays, false_eq_true, if_false, mem_singleton]
    constructor
    · rintro ⟨k, hk, rfl⟩
      exact ⟨0, rfl, by rw [hother k hd hk, hzero]⟩
    · rintro ⟨_, rfl, rfl⟩
      refine ⟨0, ?_, hzero⟩
      simp [Reservation.Within, week]

/-- **The test finds exactly the overlaps of the week.** -/
theorem meets_iff : meets r'.startTime r'.endTime r'.flags r = true ↔
    ∃ k m, r.Within k ∧ r'.Within m ∧ Meet (r'.occurrence m) (r.occurrence k) := by
  simp only [meets, any_eq_true, and_eq_true, decide_eq_true_eq]
  constructor
  · rintro ⟨i, hi, j, hj, hmeet⟩
    obtain ⟨m, hm, hmo⟩ := (within_iff _).2 ⟨i, hi, rfl⟩
    obtain ⟨k, hk, hko⟩ := (within_iff _).2 ⟨j, hj, rfl⟩
    refine ⟨k, m, hk, hm, ?_⟩
    rw [hmo, hko]
    exact hmeet
  · rintro ⟨k, m, hk, hm, hmeet⟩
    obtain ⟨i, hi, hio⟩ := (within_iff _).1 ⟨m, hm, rfl⟩
    obtain ⟨j, hj, hjo⟩ := (within_iff _).1 ⟨k, hk, rfl⟩
    rw [← hio, ← hjo] at hmeet
    exact ⟨i, hi, j, hj, hmeet⟩

/-! ## Runs -/

/-- A reservation that was accepted: as it was then, how often its times have moved on since, as it is now, and
    how often those of the earlier ones had moved on when it was accepted. -/
structure Accepted where
  first : Reservation
  count : Nat
  now : Reservation
  seen : List Nat
deriving DecidableEq

inductive Move
  | request (r : Reservation)
  | advance (i : Nat)

/-- The reservations are for whole nodes and have neither the MAINT nor the OVERLAP flag. -/
def Reservation.plain (r : Reservation) : Bool :=
  r.fullNodes && !r.flags.maint && !r.flags.overlap && decide (r.startTimeFirst = r.startTime)

/-- Reservations are requested, and their times move on. -/
def bookings : Machine (List Accepted) Move where
  step s
    | .request r =>
      if r.plain && !resvOverlap (s.map Accepted.now) r.startTime r.endTime r.flags r.nodeBitmap none then
        some (s ++ [⟨r, 0, r, s.map Accepted.count⟩])
      else none
    | .advance i =>
      if i < s.length then
        some (s.modify i fun e => { e with count := e.count + 1, now := advanceResvTime e.now })
      else none

def Reservation.shares (r r' : Reservation) : Bool := r.nodeBitmap.any fun b => r'.nodeBitmap.any (sharesNode b ·)

/-- A reservation is what it was, but for the occurrences that are over. -/
structure Accepted.Moved (e : Accepted) : Prop where
  first : e.now.startTimeFirst = e.now.startTime
  flags : e.now.flags = e.first.flags
  nodes : e.now.nodeBitmap = e.first.nodeBitmap
  full : e.now.fullNodes = true
  occurrence : ∀ k, e.now.occurrence k = e.first.occurrence (e.count + k)

/-- No occurrences of the week after the `n`-th of the first meet those of the week of the second. -/
def ApartAfter (n : Nat) (r r' : Reservation) : Prop :=
  ∀ k m, r.Within k → r'.Within m → ¬Meet (r'.occurrence m) (r.occurrence (n + k))

structure Booked (s : List Accepted) : Prop where
  moved : ∀ e ∈ s, e.Moved
  apart : ∀ (i j : Nat) (e e' : Accepted), i < j → s[i]? = some e → s[j]? = some e' → ∃ n, e'.seen[i]? = some n ∧ n ≤ e.count ∧
    (e.first.shares e'.first = true → ApartAfter n e.first e'.first)

variable {s s' : List Accepted} {e : Accepted}

theorem Accepted.Moved.period (h : e.Moved) : e.now.period = e.first.period := by
  rw [Reservation.period, Reservation.period, Reservation.dayCnt, Reservation.dayCnt, h.flags]

theorem advanceResvTime_same : (advanceResvTime r).flags = r.flags ∧
    (advanceResvTime r).nodeBitmap = r.nodeBitmap ∧ (advanceResvTime r).fullNodes = r.fullNodes := by
  unfold advanceResvTime
  split_ifs <;> exact ⟨rfl, rfl, rfl⟩

theorem startTimeFirst_advanceResvTime (h : r.startTimeFirst = r.startTime) :
    (advanceResvTime r).startTimeFirst = (advanceResvTime r).startTime := by
  unfold advanceResvTime
  split_ifs
  · exact h
  · rfl

theorem Accepted.Moved.advance (h : e.Moved) :
    Accepted.Moved { e with count := e.count + 1, now := advanceResvTime e.now } := by
  obtain ⟨hflags, hnodes, hfull⟩ := advanceResvTime_same
  refine ⟨startTimeFirst_advanceResvTime h.first, hflags.trans h.flags, hnodes.trans h.nodes, hfull.trans h.full,
    fun k => ?_⟩
  show (advanceResvTime e.now).occurrence k = e.first.occurrence (e.count + 1 + k)
  rw [occurrence_advanceResvTime h.first, h.occurrence, Nat.add_comm k 1, Nat.add_assoc]

theorem apartAfter_of_accepted (hs : ∀ e ∈ s, e.Moved) (hr : r.plain = true)
    (h : resvOverlap (s.map Accepted.now) r.startTime r.endTime r.flags r.nodeBitmap none = false) (he : e ∈ s)
    (hshare : e.first.shares r = true) : ApartAfter e.count e.first r := by
  have hm := hs e he
  intro k m hk hmw hmeet
  have hmeets : meets r.startTime r.endTime r.flags e.now = true := by
    refine meets_iff.2 ⟨k, m, ?_, hmw, ?_⟩
    · rw [Reservation.Within, hm.period]
      exact hk
    · rw [hm.occurrence]
      exact hmeet
  rw [Reservation.shares, ← hm.nodes] at hshare
  obtain ⟨b, hb, hshare⟩ := Option.any_eq_true _ _ |>.1 hshare
  obtain ⟨nodes, hnodes, hshare⟩ := Option.any_eq_true _ _ |>.1 hshare
  simp only [Reservation.plain, Bool.and_eq_true, Bool.not_eq_true'] at hr
  obtain ⟨i, hi⟩ := mem_iff_getElem?.1 he
  have hmem : (e.now, i) ∈ (s.map Accepted.now).zipIdx := by
    rw [mk_mem_zipIdx_iff_getElem?, getElem?_map, hi]
    rfl
  rw [hnodes, resvOverlap] at h
  simp only [hr.1.1.2, hr.1.2, Bool.or_self, Bool.false_eq_true, if_false] at h
  rw [any_eq_false] at h
  refine h _ hmem ?_
  simp [hb, hshare, hm.full, hmeets]

theorem Booked.request (hs : Booked s) (hr : r.plain = true)
    (h : resvOverlap (s.map Accepted.now) r.startTime r.endTime r.flags r.nodeBitmap none = false) :
    Booked (s ++ [⟨r, 0, r, s.map Accepted.count⟩]) := by
  have hplain := hr
  simp only [Reservation.plain, and_eq_true, not_eq_true', decide_eq_true_eq] at hplain
  refine ⟨fun e he => ?_, fun i j e e' hij hi hj => ?_⟩
  · rcases mem_append.1 he with he | he
    · exact hs.moved e he
    · obtain rfl := mem_singleton.1 he
      exact ⟨hplain.2, rfl, rfl, hplain.1.1.1, fun k => by simp⟩
  · obtain ⟨hlt, -⟩ := List.getElem?_eq_some_iff.1 hj
    rw [List.length_append, List.length_singleton] at hlt
    rw [getElem?_append_left (by omega)] at hi
    by_cases hlast : j < s.length
    · rw [getElem?_append_left hlast] at hj
      exact hs.apart i j e e' hij hi hj
    · obtain rfl : j = s.length := by omega
      rw [getElem?_append_right le_rfl, Nat.sub_self, getElem?_cons_zero, Option.some.injEq] at hj
      subst hj
      refine ⟨e.count, by rw [getElem?_map, hi]; rfl, le_rfl, fun hshare => ?_⟩
      exact apartAfter_of_accepted hs.moved hr h (mem_of_getElem? hi) hshare

theorem Booked.advance (hs : Booked s) (a : Nat) :
    Booked (s.modify a fun e => { e with count := e.count + 1, now := advanceResvTime e.now }) := by
  -- an entry afterwards is an entry before, or one whose times have moved on
  have hcase : ∀ {i : Nat} {e : Accepted},
      (s.modify a fun e => { e with count := e.count + 1, now := advanceResvTime e.now })[i]? = some e →
      ∃ e0, s[i]? = some e0 ∧ e.first = e0.first ∧ e0.count ≤ e.count ∧ e.seen = e0.seen ∧ (e0.Moved → e.Moved) := by
    intro i e hi
    rw [getElem?_modify] at hi
    obtain ⟨e0, he0, rfl⟩ := Option.map_eq_some_iff.1 hi
    refine ⟨e0, he0, ?_⟩
    split_ifs
    · exact ⟨rfl, Nat.le_succ _, rfl, .advance⟩
    · exact ⟨rfl, le_rfl, rfl, id⟩
  refine ⟨fun e he => ?_, fun i j e e' hij hi hj => ?_⟩
  · obtain ⟨i, hi⟩ := mem_iff_getElem?.1 he
    obtain ⟨e0, he0, -, -, -, hmoved⟩ := hcase hi
    exact hmoved (hs.moved e0 (mem_of_getElem? he0))
  · obtain ⟨e0, he0, hfirst, hcount, -⟩ := hcase hi
    obtain ⟨e₀', he₀', hfirst', -, hseen', -⟩ := hcase hj
    obtain ⟨n, hseen, hle, hapart⟩ := hs.apart i j e0 e₀' hij he0 he₀'
    rw [hfirst, hfirst', hseen']
    exact ⟨n, hseen, hle.trans hcount, hapart⟩

theorem booked_of_reach (h : bookings.Reach (fun _ _ => True) [] s) : Booked s := by
  refine h.invariant ⟨by simp, by simp⟩ fun s move s' hs _ hstep => ?_
  cases move with
  | request r =>
    obtain ⟨hok, hstep⟩ := Option.ite_none_right_eq_some.1 hstep
    cases hstep
    rw [and_eq_true, not_eq_true'] at hok
    exact hs.request hok.1 hok.2
  | advance i =>
    obtain ⟨-, hstep⟩ := Option.ite_none_right_eq_some.1 hstep
    cases hstep
    exact hs.advance i

/-- **Accepted reservations are apart for a week.**  Of two that share a node, the occurrences of the later one
    that begin less than a week after its first do not meet those of the earlier one that begin less than a
    week after the occurrence it was at when the later one was accepted. -/
theorem accepted_apart_for_a_week (h : bookings.Reach (fun _ _ => True) [] s) {i j : Nat} {e e' : Accepted}
    (hij : i < j) (hi : s[i]? = some e) (hj : s[j]? = some e') (hshare : e.first.shares e'.first = true) :
    ∃ n, e'.seen[i]? = some n ∧ n ≤ e.count ∧ ∀ k m, e.first.Within k → e'.first.Within m →
      ¬Meet (e'.first.occurrence m) (e.first.occurrence (n + k)) := by
  obtain ⟨n, hseen, hle, hapart⟩ := (booked_of_reach h).apart i j e e' hij hi hj
  exact ⟨n, hseen, hle, hapart hshare⟩

/-- An hour on the first node from `start` on. -/
def hour (flags : Flags) (start : Int) : Reservation :=
  { newReservation [] with
    nodeBitmap := some (oneWord 1 1), fullNodes := true, flags := flags, startTime := start,
    startTimeFirst := start, endTime := start + 3600 }

theorem accepted_apart_for_a_week_two : ∃ s e e', bookings.run []
      [.request (hour { noFlags with daily := true } 0), .advance 0, .request (hour noFlags 90000)] = some s ∧
    s[0]? = some e ∧ s[1]? = some e' ∧ e'.seen[0]? = some 1 ∧
    ¬Meet (e'.first.occurrence 0) (e.first.occurrence (1 + 6)) := by
  obtain ⟨s, hs⟩ : ∃ s, bookings.run []
    [.request (hour { noFlags with daily := true } 0), .advance 0, .request (hour noFlags 90000)] = some s := ⟨_, rfl⟩
  have hreach : bookings.Reach (fun _ _ => True) [] s := .of_run _ .start rfl hs
  obtain rfl := Option.some.inj hs
  obtain ⟨n, hseen, -, hapart⟩ := accepted_apart_for_a_week hreach (by decide : 0 < 1) rfl rfl (by decide)
  cases hseen
  exact ⟨_, _, _, hs, rfl, rfl, rfl, hapart 6 0 (by decide) (by decide)⟩

/-- **After the week.**  A daily reservation of one hour and one of the same hour in ten days are both accepted. -/
theorem daily_meets_later : ∃ s e e', bookings.run []
      [.request (hour { noFlags with daily := true } 0), .request (hour noFlags 864000)] = some s ∧
    s[0]? = some e ∧ s[1]? = some e' ∧ e.first.shares e'.first = true ∧
    Meet (e'.first.occurrence 0) (e.first.occurrence 10) := by
  refine ⟨_, _, _, rfl, rfl, rfl, ?_, ?_⟩ <;> decide

end Slurmpp.Resv
