/-
  Step completion messages (`src/slurmd/slurmstepd/mgr.c`).  Bit `i` of a `slurmstepd` of rank `rank` says that rank
  `rank + 1 + i` has completed; `_send_step_complete_msgs` reports one range for each run of set bits.

  1. **The scanner** — `_bit_getrange` finds the next run from a position on.  The loop resumes one position behind the
     run it has just reported; that position is clear or past the end, which keeps two ranges from touching.
  2. **What is sent** — the ranges cover the own rank and the completed ranks exactly.  They come in increasing order,
     but when bit 0 is clear the own rank has a message of its own, and that one is sent LAST.
-/
import Slurmpp.Common.Bitstring

namespace Slurmpp.Slurmstepd

open Bitstring List

/-! ## Ranges of ranks -/

def Covered (ranges : List (Int × Int)) (x : Int) : Prop := ∃ r ∈ ranges, r.1 ≤ x ∧ x ≤ r.2

/-- Disjoint and not adjacent. -/
def Apart (r q : Int × Int) : Prop := r.2 + 1 < q.1 ∨ q.2 + 1 < r.1

/-- Non-empty ranges in increasing order from `lo` on, with at least one number between any two. -/
def Spread : Int → List (Int × Int) → Prop
  | _, [] => True
  | lo, r :: ranges => lo ≤ r.1 ∧ r.1 ≤ r.2 ∧ Spread (r.2 + 2) ranges

variable {x lo : Int}

theorem covered_nil : ¬Covered [] x := fun ⟨_, h, _⟩ => not_mem_nil h

variable {ranges : List (Int × Int)}

theorem covered_cons {r : Int × Int} : Covered (r :: ranges) x ↔ (r.1 ≤ x ∧ x ≤ r.2) ∨ Covered ranges x := by
  simp [Covered]

theorem covered_append {ranges1 ranges2 : List (Int × Int)} :
    Covered (ranges1 ++ ranges2) x ↔ Covered ranges1 x ∨ Covered ranges2 x := by
  simp [Covered, or_and_right, exists_or]

theorem Spread.mono {lo' : Int} (h : Spread lo ranges) (hlo : lo' ≤ lo) : Spread lo' ranges := by
  cases ranges with
  | nil => trivial
  | cons r ranges => exact ⟨hlo.trans h.1, h.2⟩

theorem Spread.bounds : ∀ {lo : Int}, Spread lo ranges → ∀ r ∈ ranges, lo ≤ r.1 ∧ r.1 ≤ r.2 := by
  induction ranges with
  | nil => exact fun _ _ hr => absurd hr not_mem_nil
  | cons q ranges ih =>
    intro lo h r hr
    obtain ⟨hlo, hq, hrest⟩ := h
    rcases mem_cons.1 hr with rfl | hr
    · exact ⟨hlo, hq⟩
    · have := ih hrest r hr
      omega

theorem Spread.pairwise : ∀ {lo : Int}, Spread lo ranges → ranges.Pairwise fun r q => r.2 + 1 < q.1 := by
  induction ranges with
  | nil => exact fun _ => List.Pairwise.nil
  | cons q ranges ih =>
    intro lo h
    refine List.Pairwise.cons (fun r hr => ?_) (ih h.2.2)
    have := (h.2.2.bounds r hr).1
    omega

/-! ## The scanner -/

/-- The loop of `_bit_getrange` over the `n` positions from `i`.  The accumulator is `none` while
    `found_first` is false and holds `*first` and `*last` afterwards. -/
def getrangeLoop (bits : Bitstr) : Nat → Nat → Option (Nat × Nat) → Option (Nat × Nat)
  | 0, _, found => found
  | n + 1, i, none =>
    if bitTest bits i then getrangeLoop bits n (i + 1) (some (i, i))
    else getrangeLoop bits n (i + 1) none
  | n + 1, i, some (first, _) =>
    if bitTest bits i then getrangeLoop bits n (i + 1) (some (first, i))
    else some (first, i - 1)

def bitGetrange (bits : Bitstr) (start size : Nat) : Option (Nat × Nat) :=
  getrangeLoop bits (size - start) start none

variable {bits : Bitstr} {start size first last : Nat}

/-- `first .. last` is the first run of set bits from `start` on, up to its end. -/
structure NextRun (bits : Bitstr) (start size first last : Nat) : Prop where
  start_le : start ≤ first
  first_le : first ≤ last
  last_lt : last < size
  set : ∀ i, first ≤ i → i ≤ last → bitTest bits i = true
  before : ∀ i, start ≤ i → i < first → bitTest bits i = false
  after : last + 1 < size → bitTest bits (last + 1) = false

theorem NextRun.of_clear (h : NextRun bits (start + 1) size first last) (hclear : bitTest bits start = false) :
    NextRun bits start size first last where
  __ := h
  start_le := (Nat.le_succ start).trans h.start_le
  before i h1 h2 := by
    rcases h1.eq_or_lt with rfl | h1
    · exact hclear
    · exact h.before i h1 h2

theorem getrangeLoop_some {n i : Nat} (hfirst : first < i) (hset : ∀ j, first ≤ j → j < i → bitTest bits j = true) :
    ∃ last, getrangeLoop bits n i (some (first, i - 1)) = some (first, last) ∧
      NextRun bits first (i + n) first last := by
  induction n generalizing i with
  | zero =>
    refine ⟨i - 1, rfl, le_refl _, by omega, by omega, fun j h1 h2 => hset j h1 (by omega), ?_, ?_⟩
    · intro j h1 h2
      omega
    · intro h
      omega
  | succ n ih =>
    by_cases hi : bitTest bits i = true
    · have hset' : ∀ j, first ≤ j → j < i + 1 → bitTest bits j = true := by
        intro j h1 h2
        rcases Nat.lt_succ_iff_lt_or_eq.1 h2 with h | rfl
        · exact hset j h1 h
        · exact hi
      obtain ⟨last, hlast, hrun⟩ := ih (by omega) hset'
      rw [show i + (n + 1) = i + 1 + n by omega]
      refine ⟨last, ?_, hrun⟩
      rw [getrangeLoop, if_pos hi]
      exact hlast
    · refine ⟨i - 1, by rw [getrangeLoop, if_neg hi], le_refl _, by omega, by omega,
        fun j h1 h2 => hset j h1 (by omega), fun j h1 h2 => by omega, fun _ => ?_⟩
      rw [show i - 1 + 1 = i by omega]
      exact Bool.eq_false_iff.2 hi

theorem getrangeLoop_none (bits : Bitstr) (start n : Nat) :
    (getrangeLoop bits n start none = none ∧ ∀ i, start ≤ i → i < start + n → bitTest bits i = false) ∨
      ∃ first last, getrangeLoop bits n start none = some (first, last) ∧
        NextRun bits start (start + n) first last := by
  induction n generalizing start with
  | zero => exact .inl ⟨rfl, fun i h1 h2 => by omega⟩
  | succ n ih =>
    rw [getrangeLoop, show start + (n + 1) = start + 1 + n by omega]
    by_cases hi : bitTest bits start = true
    · right
      obtain ⟨last, hlast, hrun⟩ := getrangeLoop_some (Nat.lt_succ_self start) fun j h1 h2 => by
        rwa [show j = start by omega]
      rw [if_pos hi]
      exact ⟨start, last, hlast, hrun⟩
    · rw [if_neg hi]
      -- a clear bit in front changes neither answer
      have hclear : bitTest bits start = false := Bool.eq_false_iff.2 hi
      rcases ih (start + 1) with ⟨hnone, hall⟩ | ⟨first, last, hsome, hrun⟩
      · refine .inl ⟨hnone, fun i h1 h2 => ?_⟩
        rcases h1.eq_or_lt with rfl | h1
        · exact hclear
        · exact hall i h1 h2
      · exact .inr ⟨first, last, hsome, hrun.of_clear hclear⟩

/-- **The scanner**: no bit is set from `start` on, or it answers with the next run. -/
theorem bitGetrange_cases (h : start ≤ size) :
    (bitGetrange bits start size = none ∧ ∀ i, start ≤ i → i < size → bitTest bits i = false) ∨
      ∃ first last, bitGetrange bits start size = some (first, last) ∧ NextRun bits start size first last := by
  have hloop := getrangeLoop_none bits start (size - start)
  rw [show start + (size - start) = size by omega] at hloop
  exact hloop

/-! ## The messages -/

/-- What `_send_step_complete_msgs` reads of the global `step_complete`. -/
structure StepComplete where
  rank : Int
  bits : Bitstr
  /-- the rank is -1 when the step has no credential -/
  rank_ge : -1 ≤ rank
  /-- the ranks below this one are `int` values too -/
  rank_lt : rank + bits.bits < 2 ^ 31

/-- The `while` loop: the calls of `_one_step_complete_msg` and the final `sent_own_comp_msg`;
    `none` when the fuel runs out. -/
def sendRanges (s : StepComplete) : Nat → Nat → Bool → Option (List (Int × Int) × Bool)
  | 0, _, _ => none
  | fuel + 1, start, sentOwn =>
    match bitGetrange s.bits start s.bits.bits with
    | none => some ([], sentOwn)
    | some (first, last) =>
      -- THIS node is not in the bit string, so its rank is prepended
      let own := start == 0 && first == 0
      let lo : Int := if own then -1 else first
      (sendRanges s fuel (last + 1) (sentOwn || own)).map fun rest =>
        ((lo + s.rank + 1, last + s.rank + 1) :: rest.1, rest.2)

/-- `_send_step_complete_msgs`: the ranges sent, in order. -/
def sendStepCompleteMsgs (s : StepComplete) : Option (List (Int × Int)) :=
  if s.bits.bits = 0 then some [(s.rank, s.rank)]
  else
    (sendRanges s (s.bits.bits + 1) 0 false).map fun sent =>
      if sent.2 then sent.1 else sent.1 ++ [(s.rank, s.rank)]

variable {s : StepComplete}

/-- The ranks whose bit is set, from bit `start` on. -/
def Completed (s : StepComplete) (start : Nat) (x : Int) : Prop :=
  ∃ i, start ≤ i ∧ i < s.bits.bits ∧ bitTest s.bits i = true ∧ x = s.rank + 1 + i

theorem not_completed (h : ∀ i, start ≤ i → i < s.bits.bits → bitTest s.bits i = false) : ¬Completed s start x := by
  rintro ⟨i, hi, hlt, hset, -⟩
  rw [h i hi hlt] at hset
  cases hset

theorem NextRun.completed_iff (h : NextRun s.bits start s.bits.bits first last) :
    Completed s start x ↔ (first + s.rank + 1 ≤ x ∧ x ≤ last + s.rank + 1) ∨ Completed s (last + 1) x := by
  have h1 := h.start_le
  have h2 := h.first_le
  have h3 := h.last_lt
  constructor
  · rintro ⟨i, hi, hlt, hset, rfl⟩
    have hfirst : first ≤ i := by
      by_contra hn
      rw [h.before i hi (by omega)] at hset
      cases hset
    rcases Nat.lt_or_ge last i with hl | hl
    · exact .inr ⟨i, hl, hlt, hset, rfl⟩
    · exact .inl ⟨by omega, by omega⟩
  · rintro (⟨hx1, hx2⟩ | ⟨i, hi, hlt, hset, rfl⟩)
    · refine ⟨(x - s.rank - 1).toNat, by omega, by omega, h.set _ (by omega) (by omega), by omega⟩
    · exact ⟨i, by omega, hlt, hset, rfl⟩

/-- **The loop behind the first range.**  It starts on a clear bit, or at the end, so that what it
    reports lies at least one rank further on. -/
theorem sendRanges_eq (fuel start : Nat) (sentOwn : Bool) (hpos : 0 < start) (hle : start ≤ s.bits.bits)
    (hclear : start < s.bits.bits → bitTest s.bits start = false) (hfuel : s.bits.bits < start + fuel) :
    ∃ ranges, sendRanges s fuel start sentOwn = some (ranges, sentOwn) ∧
      Spread (s.rank + 1 + start + 1) ranges ∧ ∀ x, Covered ranges x ↔ Completed s start x := by
  induction fuel generalizing start with
  | zero => omega
  | succ fuel ih =>
    rcases bitGetrange_cases hle with ⟨hnone, hall⟩ | ⟨first, last, hsome, hrun⟩
    · refine ⟨[], by rw [sendRanges, hnone], trivial, fun x => ?_⟩
      exact iff_of_false covered_nil (not_completed hall)
    · have h1 := hrun.start_le
      have h2 := hrun.first_le
      have h3 := hrun.last_lt
      have hown : (start == 0 && first == 0) = false := by
        simp [show start ≠ 0 by omega]
      obtain ⟨ranges, hsend, hspread, hcov⟩ :=
        ih (last + 1) (by omega) (by omega) hrun.after (by omega)
      -- the run starts behind the clear bit
      have hfirst : first ≠ start := by
        rintro rfl
        have := hrun.set first (le_refl _) h2
        rw [hclear (by omega)] at this
        cases this
      refine ⟨((first : Int) + s.rank + 1, (last : Int) + s.rank + 1) :: ranges, ?_, ?_, fun x => ?_⟩
      · rw [sendRanges, hsome]
        simp only [hown, Bool.or_false, Bool.false_eq_true, if_false, hsend, Option.map_some]
      · refine ⟨?_, ?_, hspread.mono ?_⟩
        all_goals dsimp only; omega
      · rw [covered_cons, hcov, hrun.completed_iff]

/-- What the parent has to learn from `ranges`, the messages for the runs of the bitmap, followed by
    `own`, the separate message for the own rank if there is one. -/
structure Reports (s : StepComplete) (ranges own : List (Int × Int)) : Prop where
  nonempty : ∀ r ∈ ranges ++ own, r.1 ≤ r.2
  increasing : ranges.Pairwise fun r q => r.2 + 1 < q.1
  apart : (ranges ++ own).Pairwise Apart
  covers : ∀ x, Covered (ranges ++ own) x ↔
    x = s.rank ∨ ∃ i, i < s.bits.bits ∧ bitTest s.bits i = true ∧ x = s.rank + 1 + i

theorem completed_zero : Completed s 0 x ↔ ∃ i, i < s.bits.bits ∧ bitTest s.bits i = true ∧ x = s.rank + 1 + i := by
  simp [Completed]

theorem Spread.apart (h : Spread lo ranges) : ranges.Pairwise Apart :=
  h.pairwise.imp fun hrq => .inl hrq

theorem reports_alone (hspread : Spread (s.rank + 2) ranges)
    (hcov : ∀ x, Covered ranges x ↔ Completed s 0 x) : Reports s ranges [(s.rank, s.rank)] := by
  refine ⟨fun r hr => ?_, hspread.pairwise, ?_, fun x => ?_⟩
  · rcases mem_append.1 hr with hr | hr
    · exact (hspread.bounds r hr).2
    · rw [mem_singleton.1 hr]
  · refine pairwise_append.2 ⟨hspread.apart, pairwise_singleton .., fun r hr q hq => ?_⟩
    have hlo := (hspread.bounds r hr).1
    rw [mem_singleton.1 hq]
    exact .inr (by dsimp only; omega)
  · rw [covered_append, hcov, completed_zero, covered_cons, or_comm]
    constructor
    · rintro ((⟨h1, h2⟩ | h) | h)
      · exact .inl (le_antisymm h2 h1)
      · exact absurd h covered_nil
      · exact .inr h
    · rintro (rfl | h)
      · exact .inl (.inl ⟨le_refl _, le_refl _⟩)
      · exact .inr h

theorem reports_merged (hrun : NextRun s.bits 0 s.bits.bits 0 last) (hspread : Spread (last + s.rank + 1 + 2) ranges)
    (hcov : ∀ x, Covered ranges x ↔ Completed s (last + 1) x) :
    Reports s ((s.rank, last + s.rank + 1) :: ranges) [] := by
  have hall : Spread s.rank ((s.rank, (last : Int) + s.rank + 1) :: ranges) :=
    ⟨le_refl _, by dsimp only; omega, hspread⟩
  refine ⟨fun r hr => ?_, hall.pairwise, ?_, fun x => ?_⟩
  · rw [append_nil] at hr
    exact (hall.bounds r hr).2
  · rw [append_nil]
    exact hall.apart
  · rw [append_nil, covered_cons, hcov, ← completed_zero, hrun.completed_iff]
    constructor
    · rintro (⟨h1, h2⟩ | h)
      · rcases Int.le_iff_lt_or_eq.1 h1 with hlt | rfl
        · exact .inr (.inl ⟨by omega, h2⟩)
        · exact .inl rfl
      · exact .inr (.inr h)
    · rintro (rfl | ⟨h1, h2⟩ | h)
      · exact .inl ⟨le_refl _, by omega⟩
      · exact .inl ⟨by omega, h2⟩
      · exact .inr h

theorem reports_none (h : ∀ i, 0 ≤ i → i < s.bits.bits → bitTest s.bits i = false) : Reports s [] [(s.rank, s.rank)] :=
  reports_alone trivial fun _ => iff_of_false covered_nil (not_completed h)

theorem exists_reports (s : StepComplete) : ∃ ranges own, sendStepCompleteMsgs s = some (ranges ++ own) ∧
    Reports s ranges own ∧ (own = [] ∧ (0 < s.bits.bits ∧ bitTest s.bits 0 = true) ∨
      own = [(s.rank, s.rank)] ∧ ¬(0 < s.bits.bits ∧ bitTest s.bits 0 = true)) := by
  by_cases hsize : s.bits.bits = 0
  · refine ⟨[], _, by rw [sendStepCompleteMsgs, if_pos hsize]; rfl, reports_none fun i _ h => ?_, .inr ⟨rfl, ?_⟩⟩ <;> omega
  rw [sendStepCompleteMsgs, if_neg hsize]
  -- the first turn of the loop is the only one with `start == 0`
  rcases bitGetrange_cases (Nat.zero_le s.bits.bits) with ⟨hnone, hall⟩ | ⟨first, last, hsome, hrun⟩
  · refine ⟨[], _, by rw [sendRanges, hnone]; rfl, reports_none hall, .inr ⟨rfl, ?_⟩⟩
    rintro ⟨h, h0⟩
    rw [hall 0 (le_refl _) h] at h0
    cases h0
  have h2 := hrun.first_le
  have h3 := hrun.last_lt
  by_cases hfirst : first = 0
  · subst hfirst
    obtain ⟨ranges, hsend, hspread, hcov⟩ := sendRanges_eq s.bits.bits (last + 1) true
      (by omega) (by omega) hrun.after (by omega)
    refine ⟨(s.rank, (last : Int) + s.rank + 1) :: ranges, [], ?_,
      reports_merged hrun (hspread.mono (by omega)) hcov, .inl ⟨rfl, by omega, hrun.set 0 (le_refl _) h2⟩⟩
    rw [sendRanges, hsome]
    simp only [BEq.rfl, Bool.and_self, Bool.or_true, if_true, hsend, Option.map_some, append_nil]
    rw [show (-1 : Int) + s.rank + 1 = s.rank by omega]
  · obtain ⟨ranges, hsend, hspread, hcov⟩ := sendRanges_eq s.bits.bits (last + 1) false
      (by omega) (by omega) hrun.after (by omega)
    have hown : ((0 : Nat) == 0 && first == 0) = false := by simp [hfirst]
    refine ⟨((first : Int) + s.rank + 1, (last : Int) + s.rank + 1) :: ranges, _, ?_, ?_, .inr ⟨rfl, ?_⟩⟩
    · rw [sendRanges, hsome]
      simp only [hown, Bool.or_false, Bool.false_eq_true, if_false, hsend, Option.map_some]
    · refine reports_alone ⟨?_, ?_, hspread.mono ?_⟩ fun x => ?_
      · dsimp only
        omega
      · dsimp only
        omega
      · dsimp only
        omega
      · rw [covered_cons, hcov, hrun.completed_iff]
    · rintro ⟨h, h0⟩
      rw [hrun.before 0 (le_refl _) (by omega)] at h0
      cases h0

/-- **Completion ranges.**  The messages for the runs of the bitmap come in increasing order; when bit 0
    is set the first of them starts with the own rank.  When it is clear, the own rank is reported
    alone and after all of them.  The ranges of all messages are apart from each other and cover the
    own rank and the completed ranks, nothing else. -/
theorem completion_ranges_exact (s : StepComplete) :
    ∃ ranges own, sendStepCompleteMsgs s = some (ranges ++ own) ∧
      own = (if 0 < s.bits.bits ∧ bitTest s.bits 0 = true then [] else [(s.rank, s.rank)]) ∧
      Reports s ranges own := by
  obtain ⟨ranges, own, hsend, hrep, ⟨hown, hset⟩ | ⟨hown, hclear⟩⟩ := exists_reports s
  · exact ⟨ranges, own, hsend, hown.trans (if_pos hset).symm, hrep⟩
  · exact ⟨ranges, own, hsend, hown.trans (if_neg hclear).symm, hrep⟩

def secondChild : StepComplete := ⟨3, oneWord 2 0b10, by decide, by decide⟩

/-- **The own rank comes last**: rank 5 is reported before rank 3. -/
theorem own_rank_after_children :
    sendStepCompleteMsgs secondChild = some [(5, 5), (3, 3)] ∧
      ¬[((5, 5) : Int × Int), (3, 3)].Pairwise fun r q => r.2 < q.1 := by
  decide

end Slurmpp.Slurmstepd
