/-
  The completion of a job step, over its tree of `slurmstepd` (`src/slurmd/slurmstepd/mgr.c`, `req.c`).

  1. **The tree** — each `slurmstepd` waits for the ranks below it, or gives up waiting, takes its exit
     code and reports ranges of ranks: to its parent if that one still waits, else to the controller.

  2. **Coverage** — a rank is always with the controller or with a `slurmstepd` that still has to report
     it (`step_completion_reaches_controller`); if nothing fails, one message reports all ranks.

  3. **The exit code** — it is the largest one of all ranks (`root_reports_largest_code`), unless a task
     was signaled: `_get_exit_code` then forgets what the ranks below have reported.

  4. **Not too early** — a rank is reported when it has stopped waiting (`reported_after_exit`).
-/
import Slurmpp.Common.BitCount
import Slurmpp.Slurmd.ReverseTree
import Slurmpp.Slurmd.StepComplete

namespace Slurmpp.Slurmstepd

open Bitstring Function List Option

/-! ## The tree -/

/-- `WIFSIGNALED` -/
def signaled (estatus : Nat) : Bool := estatus % 128 != 0 && estatus % 128 != 127

/-- The loop of `_get_exit_code`; `stepRc` is `step_complete.step_rc`, `rc` the local `step_rc`. -/
def getExitCode (stepRc : Nat) : Nat → List Nat → Nat
  | rc, [] => rc
  | _, estatus :: tasks =>
    if signaled estatus then estatus else getExitCode stepRc (max stepRc estatus) tasks

/-- `NO_VAL` -/
def noVal : Nat := 0xfffffffe

/-- One `slurmstepd`: its `step_complete`, the ranges it still has to report once it has stopped waiting,
    and how often it has tried to report the first of them. -/
structure Stepd where
  bits : Bitstr
  waitChildren : Bool
  stepRc : Nat
  outbox : Option (List (Int × Int))
  tries : Nat

/-- A message to the controller. -/
structure Msg where
  sender : Nat
  range : Int × Int
  stepRc : Nat
deriving DecidableEq

structure Tree where
  stepd : Nat → Stepd
  ctrl : List Msg

/-- A job step: its ranks, the place of each in the tree, and the exit status of each of its tasks. -/
structure Step where
  n : Nat
  info : Nat → ReverseTree.Info
  tasks : Nat → List Nat

inductive Act
  | leave (r : Nat) (timeout : Bool)
  /-- The message may not `reach` the parent, and its `reply` may be lost. -/
  | attempt (r : Nat) (reach reply : Bool)

/-- `_handle_completion`: the report is recorded, or refused. -/
def handleCompletion (rank : Nat) (d : Stepd) (q : Int × Int) (stepRc : Nat) : Option (Stepd × Bool) :=
  if d.waitChildren then
    if q.1 < rank + 1 ∨ q.2 < rank + 1 then none
    else (bitNset d.bits (q.1 - (rank + 1)).toNat (q.2 - (rank + 1)).toNat).map fun bits =>
      ({ d with bits := bits, stepRc := max d.stepRc stepRc }, true)
  else some (d, false)

/-- The wait is over, and the `ranges` are to be reported. -/
def Stepd.leave (d : Stepd) (tasks : List Nat) (ranges : List (Int × Int)) : Stepd :=
  { d with waitChildren := false, stepRc := getExitCode d.stepRc noVal tasks, outbox := some ranges }

/-- The end of `_wait_for_children_slurmstepd`, and the ranges of `_send_step_complete_msgs`. -/
def leaveWait (tasks : List Nat) (rank : Nat) (d : Stepd) : Option Stepd :=
  if h : (rank : Int) + d.bits.bits < 2 ^ 31 then
    (sendStepCompleteMsgs ⟨rank, d.bits, by omega, h⟩).map (d.leave tasks)
  else none

/-- `REVERSE_TREE_PARENT_RETRY` -/
def parentRetry : Nat := 5

def Tree.put (s : Tree) (r : Nat) (d : Stepd) : Tree := { s with stepd := update s.stepd r d }

/-- The range has been reported, and the next one is due. -/
def Tree.sent (s : Tree) (r : Nat) (rest : List (Int × Int)) : Tree :=
  s.put r { s.stepd r with outbox := some rest, tries := 0 }

/-- The controller takes every message. -/
def Tree.report (s : Tree) (r : Nat) (q : Int × Int) (rest : List (Int × Int)) : Tree :=
  { s.sent r rest with ctrl := s.ctrl ++ [⟨r, q, (s.stepd r).stepRc⟩] }

/-- The parent has answered with 0, or not. -/
def Tree.answered (s : Tree) (r : Nat) (q : Int × Int) (rest : List (Int × Int)) (ok : Bool) : Tree :=
  if ok then s.sent r rest
  else if (s.stepd r).tries + 1 = parentRetry then s.report r q rest
  else s.put r { s.stepd r with tries := (s.stepd r).tries + 1 }

/-- One attempt of `_one_step_complete_msg`. -/
def Step.attempt (S : Step) (s : Tree) (r : Nat) (q : Int × Int) (rest : List (Int × Int))
    (reach reply : Bool) : Option Tree :=
  if (S.info r).parent = -1 then some (s.report r q rest)
  else
    let p := (S.info r).parent.toNat
    (if reach then handleCompletion p (s.stepd p) q (s.stepd r).stepRc else some (s.stepd p, false)).map
      fun (parent, ok) => (s.put p parent).answered r q rest (ok && reply)

/-- The waits end in any order, with or without a timeout, and so do the attempts to report. -/
def Step.machine (S : Step) : Machine Tree Act where
  step s
    | .leave r timeout =>
      let d := s.stepd r
      if r < S.n ∧ d.outbox = none ∧ (timeout = true ∧ 0 < d.bits.bits ∨ bitClearCount d.bits = some 0) then
        (leaveWait (S.tasks r) r d).map (s.put r)
      else none
    | .attempt r reach reply =>
      match (s.stepd r).outbox with
      | some (q :: rest) => if r < S.n then S.attempt s r q rest reach reply else none
      | _ => none

/-- The number of ranks below `r`. -/
def Step.below (S : Step) (r : Nat) : Nat := (S.info r).numChildren.toNat

/-- The rank `r` and those below it. -/
def Step.span (S : Step) (r : Nat) : Int × Int := (r, r + S.below r)

/-- Before anybody has finished. -/
structure Step.Fresh (S : Step) (s : Tree) : Prop where
  stepd : ∀ r < S.n, (s.stepd r).waitChildren = true ∧ (s.stepd r).outbox = none ∧
    (s.stepd r).stepRc = 0 ∧ bitAlloc (S.below r) = some (s.stepd r).bits
  ctrl : s.ctrl = []

/-- The ranks below a rank are those behind it.  They are below its parent too, and two ranks with one
    parent have none in common. -/
structure Step.Nested (S : Step) : Prop where
  root : (S.info 0).parent = -1
  below_root : S.below 0 + 1 = S.n
  within : ∀ r < S.n, r + S.below r < S.n
  parent : ∀ r, 0 < r → r < S.n → ∃ p : Nat, (S.info r).parent = p ∧ p < r ∧ r + S.below r ≤ p + S.below p
  apart : ∀ r x p : Nat, r < x → x < S.n → (S.info r).parent = p → (S.info x).parent = p → r + S.below r < x

variable {S : Step} {s t : Tree} {r p w stepRc : Nat} {d d' : Stepd} {q : Int × Int} {ok : Bool}
  {rest l : List (Int × Int)} {x : Int} {b : Bitstr} {strict : Prop} {a : Act}

open ReverseTree FullTree in
theorem nested_of_info (hw : 2 ≤ w) (hint : w < 2 ^ 31) (hn : 1 ≤ S.n)
    (hinfo : ∀ r < S.n, reverseTreeInfo r S.n w = .ok (S.info r)) : S.Nested := by
  obtain ⟨k, hroom, hans⟩ := reverseTreeInfo_eq hw hint hn fun r hr h => by
    rw [hinfo r hr] at h
    cases h
  have heq : ∀ r < S.n, S.info r = answer w k S.n r := fun r hr => by
    have := (hinfo r hr).symm.trans (hans r hr)
    injection this
  have hbelow : ∀ r < S.n, S.below r = min (r + size w (place w k r).height) S.n - r - 1 := fun r hr => by
    rw [Step.below, heq r hr, answer, Int.toNat_natCast]
  have hparent : ∀ r p : Nat, r < S.n → (S.info r).parent = p → 0 < r ∧ (place w k r).parent = p := by
    intro r p hr hp
    rw [heq r hr] at hp
    obtain ⟨hpos, -, hp⟩ := parentOf_answer.1 ⟨hr, hp⟩
    exact ⟨hpos, hp⟩
  refine ⟨by rw [heq 0 hn]; rfl, ?_, fun r hr => ?_, fun r hpos hr => ?_, fun r x p hrx hx hr' hx' => ?_⟩
  · have hbelow := hbelow 0 hn
    simp only [place_zero] at hbelow
    omega
  · rw [hbelow r hr]
    omega
  · have hlt := hr.trans_le hroom
    have hp := place_parent_lt hlt hpos
    have hle := add_size_le_parent hlt hpos
    have hs := size_pos w (place w k r).height
    refine ⟨(place w k r).parent, by rw [heq r hr, answer, if_neg hpos.ne'], hp, ?_⟩
    rw [hbelow r hr, hbelow _ (hp.trans hr)]
    omega
  · obtain ⟨hpos, hr'⟩ := hparent r p (hrx.trans hx) hr'
    obtain ⟨-, hx'⟩ := hparent x p hx hx'
    have hp := place_parent_lt ((hrx.trans hx).trans_le hroom) hpos
    have := gap (hx.trans_le hroom) (by omega) hrx
    rw [hbelow r (hrx.trans hx)]
    omega

/-! ## What a rank knows -/

/-- The own rank and those of the set bits. -/
def Knows (r : Nat) (b : Bitstr) (x : Int) : Prop :=
  x = r ∨ ∃ i, i < b.bits ∧ bitTest b i = true ∧ x = (r : Int) + 1 + i

theorem Knows.bounds (h : Knows r b x) : (r : Int) ≤ x ∧ x ≤ r + b.bits := by
  rcases h with rfl | ⟨i, hi, -, rfl⟩ <;> omega

theorem knows_of_full (h : bitClearCount b = some 0) (hlo : (r : Int) ≤ x) (hhi : x ≤ r + b.bits) : Knows r b x := by
  obtain ⟨k, hk, hzero⟩ := map_eq_some_iff.1 h
  rw [bitSetCount_eq (bits_lt_of_bitSetCount hk), some_inj] at hk
  rcases hlo.eq_or_lt with rfl | hlt
  · exact .inl rfl
  · have hle := setBelow_le b b.bits
    have hall : setBelow b b.bits = b.bits := by omega
    refine .inr ⟨(x - r - 1).toNat, by omega, ?_, by omega⟩
    exact countP_eq_length.1 (hall.trans length_range.symm) _ (mem_range.2 (by omega))

/-- The ranges of the ranks that `r` knows. -/
structure Lists (r : Nat) (b : Bitstr) (l : List (Int × Int)) : Prop where
  nonempty : ∀ q ∈ l, q.1 ≤ q.2
  apart : l.Pairwise Apart
  covers : ∀ x, Covered l x ↔ Knows r b x

theorem leaveWait_eq (tasks : List Nat) (hlt : (r : Int) + d.bits.bits < 2 ^ 31) :
    ∃ l, leaveWait tasks r d = some (d.leave tasks l) ∧ Lists r d.bits l := by
  obtain ⟨ranges, own, hsend, h, -⟩ := exists_reports ⟨r, d.bits, by omega, hlt⟩
  refine ⟨_, ?_, h.nonempty, h.apart, h.covers⟩
  unfold leaveWait
  rw [dif_pos hlt, hsend]
  exact map_some ..

/-- What `_handle_completion` makes of a report. -/
def Heard (p : Nat) (d : Stepd) (q : Int × Int) (stepRc : Nat) (d' : Stepd) (ok : Bool) : Prop :=
  d' = d ∧ ok = false ∨ ok = true ∧ d.outbox = none ∧
    ∃ b, d' = { d with bits := b, stepRc := max d.stepRc stepRc } ∧ b.bits = d.bits.bits ∧
      ∀ x, Knows p b x ↔ Knows p d.bits x ∨ q.1 ≤ x ∧ x ≤ q.2

theorem handleCompletion_eq (hwaits : d.waitChildren = true ↔ d.outbox = none) (hlo : (p : Int) + 1 ≤ q.1)
    (hle : q.1 ≤ q.2) (hhi : q.2 ≤ p + d.bits.bits) :
    ∃ d' ok, handleCompletion p d q stepRc = some (d', ok) ∧ Heard p d q stepRc d' ok ∧
      (d.outbox = none → ok = true) := by
  by_cases hw : d.waitChildren = true
  · have hstart : (q.1 - (p + 1)).toNat < d.bits.bits := by omega
    have hstop : (q.2 - (p + 1)).toNat < d.bits.bits := by omega
    obtain ⟨b, hset, hfill⟩ := nfill_eq true hstart hstop
    refine ⟨_, true, ?_, .inr ⟨rfl, hwaits.1 hw, b, rfl, hfill.bits, fun x => ?_⟩, fun _ => rfl⟩
    · rw [handleCompletion, if_pos hw, if_neg (by omega), bitNset, hset]
      rfl
    · constructor
      · rintro (rfl | ⟨i, hi, hi', rfl⟩)
        · exact .inl (.inl rfl)
        · rw [hfill.test] at hi'
          split_ifs at hi' with hin
          · exact .inr (by omega)
          · exact .inl (.inr ⟨i, hfill.bits ▸ hi, hi', rfl⟩)
      · rintro ((rfl | ⟨i, hi, hi', rfl⟩) | hx)
        · exact .inl rfl
        · refine .inr ⟨i, hfill.bits.symm ▸ hi, ?_, rfl⟩
          rw [hfill.test, hi', ite_self]
        · refine .inr ⟨(x - p - 1).toNat, by rw [hfill.bits]; omega, ?_, by omega⟩
          rw [hfill.test, if_pos (by omega)]
  · refine ⟨d, false, ?_, .inl ⟨rfl, rfl⟩, fun h => absurd (hwaits.2 h) hw⟩
    rw [handleCompletion, if_neg hw]

/-! ## One step -/

/-- A `slurmstepd` waits until it knows what it has to report.  Under `strict`, nobody times out. -/
structure Stepd.Ok (S : Step) (strict : Prop) (r : Nat) (d : Stepd) : Prop where
  size : d.bits.bits = S.below r
  waits : d.waitChildren = true ↔ d.outbox = none
  sent : ∀ l, d.outbox = some l → ∀ q ∈ l, q.1 ≤ q.2 ∧ ∀ x, q.1 ≤ x → x ≤ q.2 → Knows r d.bits x
  full : strict → d.outbox ≠ none → ∀ x : Int, r ≤ x → x ≤ r + S.below r → Knows r d.bits x

theorem Stepd.Ok.heard (h : d.Ok S strict p) (hh : Heard p d q stepRc d' ok) : d'.Ok S strict p := by
  rcases hh with ⟨rfl, -⟩ | ⟨-, hnone, b, rfl, hb, -⟩
  · exact h
  · exact ⟨hb.trans h.size, h.waits, fun l hl => (by cases hnone.symm.trans hl), fun _ hn => absurd hnone hn⟩

theorem Stepd.Ok.tail (h : d.Ok S strict r) (hout : d.outbox = some (q :: rest)) (tries : Nat) :
    Stepd.Ok S strict r { d with outbox := some rest, tries := tries } where
  size := h.size
  waits := by
    rw [h.waits, hout]
    simp
  sent := by
    rintro _ ⟨⟩ q' hq'
    exact h.sent _ hout q' (mem_cons_of_mem _ hq')
  full hs _ := h.full hs (by simp [hout])

/-- **What an attempt does.**  It does not fault: the range lies below the parent. -/
theorem attempt_eq (hS : S.Nested) (h : ∀ r < S.n, (s.stepd r).Ok S strict r) (hr : r < S.n)
    (hout : (s.stepd r).outbox = some (q :: rest)) (reach reply : Bool) :
    ((S.info r).parent = -1 ∧ r = 0 ∧ S.attempt s r q rest reach reply = some (s.report r q rest)) ∨
    ∃ p d' ok, (S.info r).parent = (p : Nat) ∧ p < r ∧ Heard p (s.stepd p) q (s.stepd r).stepRc d' ok ∧
      (reach = true → (s.stepd p).outbox = none → ok = true) ∧
      S.attempt s r q rest reach reply = some ((s.put p d').answered r q rest (ok && reply)) := by
  rcases Nat.eq_zero_or_pos r with rfl | hpos
  · exact .inl ⟨hS.root, rfl, by rw [Step.attempt, if_pos hS.root]⟩
  · obtain ⟨p, hp, hlt, hle⟩ := hS.parent r hpos hr
    obtain ⟨hq, hin⟩ := (h r hr).sent _ hout q mem_cons_self
    have h1 := (hin _ (le_refl _) hq).bounds
    have h2 := (hin _ hq (le_refl _)).bounds
    rw [(h r hr).size] at h1 h2
    have hok := h p (hlt.trans hr)
    obtain ⟨d', ok, heq, hheard, hwait⟩ := handleCompletion_eq (p := p) hok.waits (by omega) hq
      (by rw [hok.size]; omega)
    have hne : (S.info r).parent ≠ -1 := by omega
    cases reach with
    | true =>
      refine .inr ⟨p, d', ok, hp, hlt, hheard, fun _ => hwait, ?_⟩
      rw [Step.attempt, if_neg hne, hp]
      simp only [Int.toNat_natCast, if_true, heq, map_some]
    | false =>
      refine .inr ⟨p, s.stepd p, false, hp, hlt, .inl ⟨rfl, rfl⟩, fun h _ => h, ?_⟩
      rw [Step.attempt, if_neg hne, hp]
      simp only [Int.toNat_natCast, Bool.false_eq_true, if_false, map_some]

/-- **What the end of a wait does.**  It does not fault either. -/
theorem leave_eq (hS : S.Nested) (h : ∀ r < S.n, (s.stepd r).Ok S strict r) (hr : r < S.n)
    (hnone : (s.stepd r).outbox = none) {timeout : Bool}
    (hwait : timeout = true ∧ 0 < (s.stepd r).bits.bits ∨ bitClearCount (s.stepd r).bits = some 0) :
    ∃ l, S.machine.step s (.leave r timeout) = some (s.put r ((s.stepd r).leave (S.tasks r) l)) ∧
      Lists r (s.stepd r).bits l := by
  have hlt : (r : Int) + (s.stepd r).bits.bits < 2 ^ 31 := by
    have h1 := hS.within r hr
    have h2 := hS.below_root
    have h3 := (s.stepd 0).bits.bits_lt
    rw [(h 0 (by omega)).size] at h3
    rw [(h r hr).size]
    omega
  obtain ⟨l, heq, hl⟩ := leaveWait_eq (S.tasks r) hlt
  refine ⟨l, ?_, hl⟩
  unfold Step.machine
  dsimp only
  rw [if_pos ⟨hr, hnone, hwait⟩, heq]
  exact map_some ..

/-! ## Coverage -/

/-- What the `slurmstepd` still has to report. -/
def Owes (r : Nat) (d : Stepd) (x : Int) : Prop :=
  match d.outbox with
  | none => Knows r d.bits x
  | some l => Covered l x

/-- A message to the controller has the rank in its range. -/
def Told (ctrl : List Msg) (x : Int) : Prop := ∃ m ∈ ctrl, m.range.1 ≤ x ∧ x ≤ m.range.2

/-- **No rank falls between two `slurmstepd`.** -/
structure Kept (S : Step) (strict : Prop) (s : Tree) : Prop where
  ok : ∀ r < S.n, (s.stepd r).Ok S strict r
  covers : ∀ x : Nat, x < S.n → Told s.ctrl x ∨ ∃ r < S.n, Owes r (s.stepd r) x

theorem Kept.put (h : Kept S strict s) (ht : t.stepd = update s.stepd r d) (hok : d.Ok S strict r)
    (hctrl : s.ctrl ⊆ t.ctrl) (howes : ∀ x, Owes r (s.stepd r) x →
      Told t.ctrl x ∨ Owes r d x ∨ ∃ p < S.n, p ≠ r ∧ Owes p (s.stepd p) x) : Kept S strict t := by
  refine ⟨ht ▸ (forall_update_iff _ fun r d => r < S.n → Stepd.Ok S strict r d).2
    ⟨fun _ => hok, fun p _ => h.ok p⟩, fun x hx => ?_⟩
  rcases h.covers x hx with ⟨m, hm, hx⟩ | ⟨p, hp, ho⟩
  · exact .inl ⟨m, hctrl hm, hx⟩
  rcases eq_or_ne p r with rfl | hne
  · rcases howes x ho with hc | ho | ⟨p', hp', hne, ho⟩
    · exact .inl hc
    · exact .inr ⟨p, hp, by rwa [ht, update_self]⟩
    · exact .inr ⟨p', hp', by rwa [ht, update_of_ne hne]⟩
  · exact .inr ⟨p, hp, by rwa [ht, update_of_ne hne]⟩

theorem Kept.heard (h : Kept S strict s) (hp : p < S.n) (hh : Heard p (s.stepd p) q stepRc d' ok) :
    Kept S strict (s.put p d') := by
  refine h.put rfl ((h.ok p hp).heard hh) (Subset.refl _) fun x ho => .inr (.inl ?_)
  rcases hh with ⟨rfl, -⟩ | ⟨-, hnone, b, rfl, -, hb⟩
  · exact ho
  · rw [Owes, hnone] at ho ⊢
    exact (hb x).2 (.inl ho)

section

variable (h : Kept S strict s) (hr : r < S.n) (hout : (s.stepd r).outbox = some (q :: rest))
include h hr hout

theorem Kept.sent {ctrl : List Msg} (hctrl : s.ctrl ⊆ ctrl) (hq : ∀ x, q.1 ≤ x → x ≤ q.2 →
      Told ctrl x ∨ ∃ p < S.n, p ≠ r ∧ Owes p (s.stepd p) x) : Kept S strict { s.sent r rest with ctrl := ctrl } := by
  refine h.put rfl ((h.ok r hr).tail hout 0) hctrl fun x ho => ?_
  rw [Owes, hout] at ho
  rcases covered_cons.1 ho with ⟨h1, h2⟩ | ho
  · exact (hq x h1 h2).imp_right .inr
  · exact .inr (.inl ho)

theorem Kept.report : Kept S strict (s.report r q rest) :=
  h.sent hr hout (subset_append_left ..) fun _ h1 h2 =>
    .inl ⟨_, mem_append_right _ mem_cons_self, h1, h2⟩

theorem Kept.answered
    (hq : ok = true → ∀ x, q.1 ≤ x → x ≤ q.2 → ∃ p < S.n, p ≠ r ∧ Owes p (s.stepd p) x) :
    Kept S strict (s.answered r q rest ok) := by
  unfold Tree.answered
  split_ifs with hok
  · exact h.sent hr hout (Subset.refl _) fun x h1 h2 => .inr (hq hok x h1 h2)
  · exact h.report hr hout
  · have hd := h.ok r hr
    exact h.put rfl ⟨hd.size, hd.waits, hd.sent, hd.full⟩ (Subset.refl _) fun x ho => .inr (.inl ho)

end

/-- **What a step can do.** -/
theorem step_cases (hS : S.Nested) (h : ∀ r < S.n, (s.stepd r).Ok S strict r) (hstep : S.machine.step s a = some t) :
    (∃ r timeout l, a = .leave r timeout ∧ r < S.n ∧ (s.stepd r).outbox = none ∧
      (timeout = true ∨ bitClearCount (s.stepd r).bits = some 0) ∧
      t = s.put r ((s.stepd r).leave (S.tasks r) l) ∧ Lists r (s.stepd r).bits l) ∨
    ∃ r reach reply q rest, a = .attempt r reach reply ∧ r < S.n ∧
      (s.stepd r).outbox = some (q :: rest) ∧
      (r = 0 ∧ t = s.report r q rest ∨
      ∃ p d' ok, (S.info r).parent = (p : Nat) ∧ p < r ∧ Heard p (s.stepd p) q (s.stepd r).stepRc d' ok ∧
        (reach = true → (s.stepd p).outbox = none → ok = true) ∧
        t = (s.put p d').answered r q rest (ok && reply)) := by
  cases a with
  | leave r timeout =>
    have hc : r < S.n ∧ (s.stepd r).outbox = none ∧
        (timeout = true ∧ 0 < (s.stepd r).bits.bits ∨ bitClearCount (s.stepd r).bits = some 0) := by
      unfold Step.machine at hstep
      dsimp only at hstep
      split_ifs at hstep with hc
      exact hc
    obtain ⟨hr, hnone, hwait⟩ := hc
    obtain ⟨l, heq, hl⟩ := leave_eq hS h hr hnone hwait
    rw [hstep, some_inj] at heq
    exact .inl ⟨r, timeout, l, rfl, hr, hnone, hwait.imp_left And.left, heq, hl⟩
  | attempt r reach reply =>
    unfold Step.machine at hstep
    dsimp only at hstep
    split at hstep
    · rename_i q rest hout
      split_ifs at hstep with hr
      refine .inr ⟨r, reach, reply, q, rest, rfl, hr, hout, ?_⟩
      rcases attempt_eq hS h hr hout reach reply with ⟨-, hroot, heq⟩ | ⟨p, d', ok, hp, hpr, hh, hok, heq⟩
      · exact .inl ⟨hroot, some_inj.1 (hstep.symm.trans heq)⟩
      · exact .inr ⟨p, d', ok, hp, hpr, hh, hok, some_inj.1 (hstep.symm.trans heq)⟩
    · cases hstep

theorem Tree.put_self : (s.put r d).stepd r = d := update_self ..

theorem Tree.put_of_ne (h : p ≠ r) : (s.put r d).stepd p = s.stepd p := update_of_ne h ..

theorem kept_step (hS : S.Nested) (h : Kept S strict s) (hstrict : strict → ∀ r, a ≠ .leave r true)
    (hstep : S.machine.step s a = some t) : Kept S strict t := by
  obtain ⟨r, timeout, l, rfl, hr, hnone, hwait, rfl, hl⟩ |
    ⟨r, reach, reply, q, rest, rfl, hr, hout, ⟨-, rfl⟩ | ⟨p, d', ok, -, hpr, hh, -, rfl⟩⟩ :=
    step_cases hS h.ok hstep
  · have hd := h.ok r hr
    refine h.put rfl ⟨hd.size, ⟨nofun, nofun⟩, ?_, fun hs _ x hlo hhi => ?_⟩ (Subset.refl _)
      fun x ho => .inr (.inl ?_)
    · rintro _ ⟨⟩ q hq
      exact ⟨hl.nonempty q hq, fun x h1 h2 => (hl.covers x).1 ⟨q, hq, h1, h2⟩⟩
    · rcases hwait with rfl | hfull
      · exact absurd rfl (hstrict hs r)
      · exact knows_of_full hfull hlo (hd.size ▸ hhi)
    · rw [Owes, hnone] at ho
      exact (hl.covers x).2 ho
  · exact h.report hr hout
  · refine (h.heard (hpr.trans hr) hh).answered hr ?_ fun hok x h1 h2 => ?_
    · rwa [Tree.put_of_ne hpr.ne']
    · refine ⟨p, hpr.trans hr, hpr.ne, ?_⟩
      rcases hh with ⟨-, rfl⟩ | ⟨-, hnone, b, rfl, -, hb⟩
      · cases hok
      · rw [Tree.put_self, Owes, hnone]
        exact (hb x).2 (.inr ⟨h1, h2⟩)

theorem kept_of_fresh (h : S.Fresh s) : Kept S strict s := by
  refine ⟨fun r hr => ?_, fun x hx => .inr ⟨x, hx, ?_⟩⟩
  · obtain ⟨hw, hnone, -, hbits⟩ := h.stepd r hr
    exact ⟨bits_bitAlloc hbits, by rw [hw, hnone]; simp, fun l hl => (by cases hnone.symm.trans hl),
      fun _ hn => absurd hnone hn⟩
  · rw [Owes, (h.stepd x hx).2.1]
    exact .inl rfl

/-! ## Nothing fails -/

/-- No wait ends by a timeout, and every message gets through. -/
def Act.calm : Act → Bool
  | .leave _ timeout => !timeout
  | .attempt _ reach reply => reach && reply

def Act.timeout : Act → Bool
  | .leave _ timeout => timeout
  | .attempt .. => false

/-- Each rank reports once, and a parent hears of a rank only by its own report. -/
structure Calm (S : Step) (s : Tree) : Prop where
  sole : ∀ r < S.n, (s.stepd r).outbox = none ∨ (s.stepd r).outbox = some [S.span r] ∨ (s.stepd r).outbox = some []
  early : ∀ r p : Nat, r < S.n → (S.info r).parent = p → Knows p (s.stepd p).bits r → (s.stepd r).outbox = some []
  ctrl : s.ctrl.map Msg.range = if (s.stepd 0).outbox = some [] then [(0, (S.n : Int) - 1)] else []

theorem eq_singleton_of_covers {lo hi : Int} (hle : lo ≤ hi) (hne : ∀ q ∈ l, q.1 ≤ q.2)
    (hap : l.Pairwise Apart) (hcov : ∀ x, Covered l x ↔ lo ≤ x ∧ x ≤ hi) : l = [(lo, hi)] := by
  have hin : ∀ q ∈ l, lo ≤ q.1 ∧ q.2 ≤ hi := fun q hq =>
    ⟨((hcov q.1).1 ⟨q, hq, le_refl _, hne q hq⟩).1, ((hcov q.2).1 ⟨q, hq, hne q hq, le_refl _⟩).2⟩
  have : Std.Symm Apart := ⟨fun _ _ => Or.symm⟩
  obtain ⟨q, hq, h1, h2⟩ := (hcov lo).2 ⟨le_refl _, hle⟩
  have hlo : q.1 = lo := le_antisymm h1 (hin q hq).1
  have hhi : q.2 = hi := by
    by_contra h
    have := (hin q hq).2
    obtain ⟨q', hq', h3, h4⟩ := (hcov (q.2 + 1)).2 ⟨by omega, by omega⟩
    rcases hap.forall hq hq' (by rintro rfl; omega) with h | h <;> omega
  have hall : ∀ q' ∈ l, q' = q := fun q' hq' => by
    by_contra h
    have h3 := hin q' hq'
    have h4 := hne q' hq'
    rcases hap.forall hq' hq h with h | h <;> omega
  rw [← hlo, ← hhi]
  match l, hall, hap with
  | [], _, _ => exact absurd hq not_mem_nil
  | [q'], hall, _ => rw [hall q' mem_cons_self]
  | q1 :: q2 :: l, hall, hap =>
    have hself : Apart q1 q2 := rel_of_pairwise_cons hap mem_cons_self
    rw [hall q1 mem_cons_self, hall q2 (mem_cons_of_mem _ mem_cons_self)] at hself
    rcases hself with h | h <;> omega

theorem Calm.next (h : Calm S s) (hr : r < S.n) (hnot : (s.stepd r).outbox ≠ some [])
    (hsole : (t.stepd r).outbox = some [S.span r] ∨ (t.stepd r).outbox = some [])
    (hout : ∀ x, x ≠ r → (t.stepd x).outbox = (s.stepd x).outbox)
    (hknow : ∀ x p : Nat, x < S.n → (S.info x).parent = p → Knows p (t.stepd p).bits x →
      Knows p (s.stepd p).bits x ∨ x = r ∧ (t.stepd r).outbox = some [])
    (hctrl : t.ctrl.map Msg.range = if (t.stepd 0).outbox = some [] then [(0, (S.n : Int) - 1)] else []) :
    Calm S t := by
  refine ⟨fun x hx => ?_, fun x p hx hp hk => ?_, hctrl⟩
  · rcases eq_or_ne x r with rfl | hne
    · exact .inr hsole
    · rw [hout x hne]
      exact h.sole x hx
  · rcases hknow x p hx hp hk with hk | ⟨rfl, hempty⟩
    · have hempty := h.early x p hx hp hk
      rwa [hout x (by rintro rfl; exact hnot hempty)]
    · exact hempty

theorem Calm.leave (h : Calm S s) (hr : r < S.n) (hnone : (s.stepd r).outbox = none)
    (hbits : d.bits = (s.stepd r).bits) (hd : d.outbox = some [S.span r]) : Calm S (s.put r d) := by
  refine h.next hr (by simp [hnone]) (.inl (by rw [Tree.put_self, hd]))
    (fun x hx => by rw [Tree.put_of_ne hx]) (fun x p _ _ hk => .inl ?_) ?_
  · rcases eq_or_ne p r with rfl | hne
    · rwa [Tree.put_self, hbits] at hk
    · rwa [Tree.put_of_ne hne] at hk
  · have hctrl := h.ctrl
    rcases eq_or_ne 0 r with rfl | hne
    · rw [hnone, if_neg nofun] at hctrl
      rwa [Tree.put_self, hd, if_neg (by simp)]
    · rwa [Tree.put_of_ne hne]

theorem Calm.report (hS : S.Nested) (h : Calm S s) (hout : (s.stepd 0).outbox = some [S.span 0]) :
    Calm S (s.report 0 (S.span 0) []) := by
  have hn := hS.below_root
  rw [Tree.report, Tree.sent]
  refine h.next (r := 0) (by omega) (by simp [hout]) (.inr (by rw [Tree.put_self]))
    (fun x hx => by rw [Tree.put_of_ne hx]) (fun x p _ _ hk => .inl ?_) ?_
  · rcases eq_or_ne p 0 with rfl | hne
    · rwa [Tree.put_self] at hk
    · rwa [Tree.put_of_ne hne] at hk
  · have hnil := h.ctrl
    rw [hout, if_neg (by simp)] at hnil
    rw [Tree.put_self, if_pos rfl, map_append, hnil, ← hn]
    simp [Step.span]

theorem Calm.handed (hS : S.Nested) (h : Calm S s) (hr : r < S.n) (hout : (s.stepd r).outbox = some [S.span r])
    (hp : (S.info r).parent = p) (hpr : p < r) (hd : d.outbox = (s.stepd p).outbox)
    (hb : ∀ x, Knows p d.bits x → Knows p (s.stepd p).bits x ∨ (r : Int) ≤ x ∧ x ≤ r + S.below r) :
    Calm S ((s.put p d).sent r []) := by
  have hself : ∀ x, ((s.put p d).stepd x).outbox = (s.stepd x).outbox := fun x => by
    rcases eq_or_ne x p with rfl | hne
    · rw [Tree.put_self, hd]
    · rw [Tree.put_of_ne hne]
  rw [Tree.sent]
  refine h.next hr (by simp [hout]) (.inr (by rw [Tree.put_self]))
    (fun x hx => by rw [Tree.put_of_ne hx, hself]) (fun x p' hx hp' hk => ?_) ?_
  · rcases eq_or_ne p' r with rfl | hne
    · rw [Tree.put_self, Tree.put_of_ne hpr.ne'] at hk
      exact .inl hk
    rw [Tree.put_of_ne hne] at hk
    rcases eq_or_ne p' p with rfl | hne'
    · rw [Tree.put_self] at hk
      refine (hb x hk).imp_right fun ⟨h1, h2⟩ => ⟨?_, by rw [Tree.put_self]⟩
      by_contra hx'
      have := hS.apart r x p' (by omega) hx hp hp'
      omega
    · rw [Tree.put_of_ne hne'] at hk
      exact .inl hk
  · rw [Tree.put_of_ne (show 0 ≠ r by omega), hself]
    exact h.ctrl

theorem calm_step (hS : S.Nested) (hk : Kept S True s) (h : Calm S s) (ha : a.calm = true)
    (hstep : S.machine.step s a = some t) : Calm S t := by
  obtain ⟨r, timeout, l, rfl, hr, hnone, hwait, rfl, hl⟩ |
    ⟨r, reach, reply, q, rest, rfl, hr, hout, hcase⟩ := step_cases hS hk.ok hstep
  · have hd := hk.ok r hr
    have hfull : bitClearCount (s.stepd r).bits = some 0 := by
      refine hwait.resolve_left ?_
      rintro rfl
      cases ha
    refine h.leave hr hnone rfl (congrArg some (eq_singleton_of_covers (by omega) hl.nonempty hl.apart fun x =>
      (hl.covers x).trans ⟨fun hx => ?_, fun hx => ?_⟩))
    · exact hd.size ▸ hx.bounds
    · exact knows_of_full hfull hx.1 (hd.size.symm ▸ hx.2)
  · obtain ⟨rfl, rfl⟩ := Bool.and_eq_true_iff.1 ha
    obtain ⟨rfl, rfl⟩ : q = S.span r ∧ rest = [] := by
      have := h.sole r hr
      rw [hout] at this
      simpa using this
    obtain ⟨rfl, rfl⟩ | ⟨p, d', ok, hp, hpr, hh, hok, rfl⟩ := hcase
    · exact h.report hS hout
    · -- the parent still waits: it would know the rank otherwise
      have hwaits : (s.stepd p).outbox = none := by
        by_contra hleft
        obtain ⟨p', hp', -, hle⟩ := hS.parent r (by omega) hr
        obtain rfl : p = p' := by omega
        have := h.early r p hr hp ((hk.ok p (hpr.trans hr)).full trivial hleft r (by omega) (by omega))
        rw [hout] at this
        cases this
      obtain rfl : ok = true := hok rfl hwaits
      rcases hh with ⟨-, hfalse⟩ | ⟨-, -, b, rfl, -, hb⟩
      · cases hfalse
      · exact h.handed hS hr hout hp hpr rfl fun x => (hb x).1

/-- No move that is due is impossible. -/
def Step.Able (S : Step) (s : Tree) : Prop := ∀ r < S.n,
  (∀ q rest, (s.stepd r).outbox = some (q :: rest) →
    ∀ reach reply, (S.machine.step s (.attempt r reach reply)).isSome = true) ∧
  ∀ timeout, (s.stepd r).outbox = none →
    timeout = true ∧ 0 < S.below r ∨ bitClearCount (s.stepd r).bits = some 0 →
    (S.machine.step s (.leave r timeout)).isSome = true

theorem Kept.able (hS : S.Nested) (h : Kept S strict s) : S.Able s := by
  refine fun r hr => ⟨fun q rest hout reach reply => ?_, fun timeout hnone hwait => ?_⟩
  · have heq : S.machine.step s (.attempt r reach reply) = S.attempt s r q rest reach reply := by
      unfold Step.machine
      simp only [hout, if_pos hr]
    rw [heq]
    rcases attempt_eq hS h.ok hr hout reach reply with ⟨-, -, heq⟩ | ⟨p, d', ok, -, -, -, -, heq⟩
    all_goals rw [heq, isSome_some]
  · rw [← (h.ok r hr).size] at hwait
    obtain ⟨l, heq, -⟩ := leave_eq hS h.ok hr hnone hwait
    rw [heq, isSome_some]

theorem calm_of_fresh (hS : S.Nested) (h : S.Fresh s) : Calm S s := by
  refine ⟨fun r hr => .inl (h.stepd r hr).2.1, fun r p hr hp hk => ?_, ?_⟩
  · have hpos : 0 < r := by
      by_contra h0
      rw [show r = 0 by omega, hS.root] at hp
      omega
    obtain ⟨p', hp', hlt, -⟩ := hS.parent r hpos hr
    obtain ⟨-, -, -, hbits⟩ := h.stepd p (by omega)
    rcases hk with hk | ⟨i, -, hi, -⟩
    · omega
    · rw [bitTest_bitAlloc hbits] at hi
      cases hi
  · have hn := hS.below_root
    rw [h.ctrl, (h.stepd 0 (by omega)).2.1, if_neg nofun]
    rfl

/-- **Step completion reaches the controller.**  Whatever times out or fails, no move faults, and once
    everybody has reported the ranges at the controller cover all ranks; when nothing fails, they are the one
    range of all ranks. -/
theorem step_completion_reaches_controller {s₀ : Tree} (hw : 2 ≤ w) (hint : w < 2 ^ 31) (hn : 1 ≤ S.n)
    (hinfo : ∀ r < S.n, ReverseTree.reverseTreeInfo r S.n w = .ok (S.info r)) (hfresh : S.Fresh s₀) :
    (∀ s, S.machine.Reach (fun _ _ => True) s₀ s → S.Able s ∧
      ((∀ r < S.n, (s.stepd r).outbox = some []) → ∀ x : Nat, x < S.n → Told s.ctrl x)) ∧
    ∀ s, S.machine.Reach (fun _ a => a.calm = true) s₀ s → (∀ r < S.n, (s.stepd r).outbox = some []) →
      s.ctrl.map Msg.range = [(0, (S.n : Int) - 1)] := by
  have hS := nested_of_info hw hint hn hinfo
  refine ⟨fun s hs => ?_, fun s hs hall => ?_⟩
  · have hk : Kept S False s := hs.invariant (kept_of_fresh hfresh)
      fun _ _ _ h _ => kept_step hS h False.elim
    refine ⟨hk.able hS, fun hall x hx => (hk.covers x hx).resolve_right ?_⟩
    rintro ⟨r, hr, ho⟩
    rw [Owes, hall r hr] at ho
    exact covered_nil ho
  · have hk := hs.invariant (I := fun s => Kept S True s ∧ Calm S s)
      ⟨kept_of_fresh hfresh, calm_of_fresh hS hfresh⟩ fun s a t h ha hstep =>
        ⟨kept_step hS h.1 (fun _ r hr => by subst hr; cases ha) hstep, calm_step hS h.1 h.2 ha hstep⟩
    rw [hk.2.ctrl, hall 0 hn, if_pos rfl]

/-- Two ranks with the given statuses, and both have just started. -/
def twoRanks (first second : Nat) : Step where
  n := 2
  info r := if r = 0 then ⟨-1, 1, 0, 1⟩ else ⟨0, 0, 1, 1⟩
  tasks r := [if r = 0 then first else second]

def twoStepds : Tree where
  stepd r := ⟨if r = 0 then oneWord 1 0 else oneWord 0 0, true, 0, none, 0⟩
  ctrl := []

/-- The second rank reports to the first, and that one to the controller. -/
def twoReports : List Act :=
  [.leave 1 false, .attempt 1 true true, .leave 0 false, .attempt 0 true true]

theorem info_twoRanks (first second : Nat) : ∀ r : Nat, r < 2 →
    ReverseTree.reverseTreeInfo r 2 2 = .ok ((twoRanks first second).info r) := by
  show ∀ r : Nat, r < 2 → ReverseTree.reverseTreeInfo r 2 2 = .ok (if r = 0 then ⟨-1, 1, 0, 1⟩ else ⟨0, 0, 1, 1⟩)
  decide

theorem fresh_twoRanks (first second : Nat) : (twoRanks first second).Fresh twoStepds := by
  refine ⟨fun r hr => ?_, rfl⟩
  obtain rfl | rfl : r = 0 ∨ r = 1 := by
    change r < 2 at hr
    omega
  · exact ⟨rfl, rfl, rfl, show bitAlloc 1 = some (twoStepds.stepd 0).bits by decide⟩
  · exact ⟨rfl, rfl, rfl, show bitAlloc 0 = some (twoStepds.stepd 1).bits by decide⟩

theorem step_completion_reaches_controller_two :
    ∃ s, (twoRanks 0 0).machine.Reach (fun _ a => a.calm = true) twoStepds s ∧
      s.ctrl.map Msg.range = [(0, 1)] := by
  obtain ⟨s, hs, hout⟩ := map_eq_some_iff.1 (show ((twoRanks 0 0).machine.run twoStepds twoReports).map
    (fun s => ((s.stepd 0).outbox, (s.stepd 1).outbox)) = some (some [], some []) by decide)
  obtain ⟨h₀, h₁⟩ := Prod.mk.inj hout
  have hreach := Machine.Reach.of_run (P := fun _ a => a.calm = true) twoReports .start (by decide) hs
  refine ⟨s, hreach, (step_completion_reaches_controller (by decide) (by decide) (by decide)
    (info_twoRanks 0 0) (fresh_twoRanks 0 0)).2 s hreach fun r hr => ?_⟩
  obtain rfl | rfl : r = 0 ∨ r = 1 := by
    change r < 2 at hr
    omega
  · exact h₀
  · exact h₁

/-! ## The exit code -/

/-- The exit code of a rank on its own. -/
def Step.own (S : Step) (r : Nat) : Nat := getExitCode 0 noVal (S.tasks r)

/-- A signaled task does not hide a larger code from below. -/
def Step.lasting (S : Step) (s : Tree) : Act → Bool
  | .leave r _ => ((S.tasks r).find? signaled).all fun estatus => decide ((s.stepd r).stepRc ≤ estatus)
  | .attempt .. => true

theorem getExitCode_max {tasks : List Nat} {rc : Nat}
    (h : (tasks.find? signaled).all fun estatus => decide (stepRc ≤ estatus)) :
    getExitCode stepRc (max stepRc rc) tasks = max stepRc (getExitCode 0 rc tasks) := by
  induction tasks generalizing rc with
  | nil => rfl
  | cons estatus tasks ih =>
    rw [getExitCode, getExitCode]
    rw [find?_cons] at h
    split_ifs with hs
    · rw [hs] at h
      exact (max_eq_right (of_decide_eq_true h)).symm
    · rw [Bool.eq_false_iff.2 hs] at h
      rw [Nat.zero_max, ih h]

theorem getExitCode_eq {tasks : List Nat} (hne : tasks ≠ [])
    (h : (tasks.find? signaled).all fun estatus => decide (stepRc ≤ estatus)) :
    getExitCode stepRc noVal tasks = max stepRc (getExitCode 0 noVal tasks) := by
  obtain ⟨estatus, tasks, rfl⟩ := exists_cons_of_ne_nil hne
  have hmax : getExitCode stepRc (max stepRc noVal) (estatus :: tasks) = _ := getExitCode_max h
  rw [getExitCode] at hmax ⊢
  exact hmax

/-- The code a rank has is the largest one it knows of. -/
structure Stepd.Coded (S : Step) (r : Nat) (d : Stepd) : Prop where
  known : ∀ x : Nat, Knows r d.bits x → (x = r → d.outbox ≠ none) → S.own x ≤ d.stepRc
  attained : d.stepRc = 0 ∧ d.outbox = none ∨ ∃ x < S.n, d.stepRc = S.own x

structure Coded (S : Step) (s : Tree) : Prop where
  ok : ∀ r < S.n, (s.stepd r).Coded S r
  ctrl : ∀ m ∈ s.ctrl, (s.stepd m.sender).outbox ≠ none ∧ m.stepRc = (s.stepd m.sender).stepRc

theorem Coded.put (h : Coded S s) (ht : t.stepd = update s.stepd r d) (hd : d.Coded S r)
    (hsame : (s.stepd r).outbox ≠ none → d.outbox ≠ none ∧ d.stepRc = (s.stepd r).stepRc)
    (hctrl : ∀ m ∈ t.ctrl, m ∈ s.ctrl ∨ m.sender = r ∧ (s.stepd r).outbox ≠ none ∧
      m.stepRc = (s.stepd r).stepRc) : Coded S t := by
  refine ⟨ht ▸ (forall_update_iff _ fun r d => r < S.n → Stepd.Coded S r d).2
    ⟨fun _ => hd, fun p _ => h.ok p⟩, fun m hm => ?_⟩
  have hold : (s.stepd m.sender).outbox ≠ none ∧ m.stepRc = (s.stepd m.sender).stepRc := by
    rcases hctrl m hm with hm | ⟨rfl, hm⟩
    · exact h.ctrl m hm
    · exact hm
  rw [ht]
  rcases eq_or_ne m.sender r with rfl | hne
  · rw [update_self, (hsame hold.1).2]
    exact ⟨(hsame hold.1).1, hold.2⟩
  · rwa [update_of_ne hne]

theorem Coded.sent (h : Coded S s) (hr : r < S.n) (hout : (s.stepd r).outbox = some (q :: rest))
    {ctrl : List Msg} (hctrl : ∀ m ∈ ctrl, m ∈ s.ctrl ∨ m = ⟨r, q, (s.stepd r).stepRc⟩) :
    Coded S { s.sent r rest with ctrl := ctrl } := by
  have hd := h.ok r hr
  have hleft : (s.stepd r).outbox ≠ none := by simp [hout]
  refine h.put rfl ⟨fun x hx _ => hd.known x hx fun _ => hleft, .inr ?_⟩ (fun _ => ⟨nofun, rfl⟩)
    fun m hm => (hctrl m hm).imp_right ?_
  · exact hd.attained.resolve_left fun h => hleft h.2
  · rintro rfl
    exact ⟨rfl, hleft, rfl⟩

theorem Coded.answered (h : Coded S s) (hr : r < S.n) (hout : (s.stepd r).outbox = some (q :: rest)) :
    Coded S (s.answered r q rest ok) := by
  unfold Tree.answered
  split_ifs
  · exact h.sent hr hout fun m hm => .inl hm
  · exact h.sent hr hout fun m hm => (mem_append.1 hm).imp_right mem_singleton.1
  · exact h.put rfl ⟨(h.ok r hr).known, (h.ok r hr).attained⟩ (fun hn => ⟨hn, rfl⟩) fun m hm => .inl hm

theorem Stepd.Coded.heard (h : d.Coded S p) (hh : Heard p d q stepRc d' ok)
    (hq : ∀ x : Nat, q.1 ≤ x → x ≤ q.2 → S.own x ≤ stepRc) (hrc : ∃ x < S.n, stepRc = S.own x) : d'.Coded S p := by
  rcases hh with ⟨rfl, -⟩ | ⟨-, hnone, b, rfl, -, hb⟩
  · exact h
  · refine ⟨fun x hx hself => ?_, ?_⟩
    · rcases (hb x).1 hx with hx | ⟨h1, h2⟩
      · exact (h.known x hx hself).trans (le_max_left ..)
      · exact (hq x h1 h2).trans (le_max_right ..)
    · rcases max_choice d.stepRc stepRc with heq | heq
      · rw [heq]
        exact h.attained
      · rw [heq]
        exact .inr hrc

theorem coded_step (hS : S.Nested) (htasks : ∀ r < S.n, S.tasks r ≠ []) (hk : Kept S strict s)
    (h : Coded S s) (ha : S.lasting s a = true) (hstep : S.machine.step s a = some t) : Coded S t := by
  obtain ⟨r, timeout, l, rfl, hr, hnone, -, rfl, -⟩ |
    ⟨r, reach, reply, q, rest, rfl, hr, hout, ⟨-, rfl⟩ | ⟨p, d', ok, -, hpr, hh, -, rfl⟩⟩ :=
    step_cases hS hk.ok hstep
  · have hd := h.ok r hr
    rw [Stepd.leave, getExitCode_eq (htasks r hr) ha]
    refine h.put rfl ⟨fun x hx _ => ?_, .inr ?_⟩ (absurd hnone) fun m hm => .inl hm
    · by_cases hxr : x = r
      · rw [hxr]
        exact le_max_right ..
      · exact (hd.known x hx (absurd · hxr)).trans (le_max_left ..)
    · rcases hd.attained with ⟨hzero, -⟩ | ⟨x, hx, hrc⟩
      · exact ⟨r, hr, by dsimp only; rw [hzero, Nat.zero_max]; rfl⟩
      · rcases max_choice (s.stepd r).stepRc (getExitCode 0 noVal (S.tasks r)) with heq | heq
        · exact ⟨x, hx, heq.trans hrc⟩
        · exact ⟨r, hr, heq⟩
  · exact h.sent hr hout fun m hm => (mem_append.1 hm).imp_right mem_singleton.1
  · have hd := h.ok r hr
    have hleft : (s.stepd r).outbox ≠ none := by simp [hout]
    have hp : Coded S (s.put p d') := by
      refine h.put rfl ((h.ok p (hpr.trans hr)).heard hh (fun x h1 h2 => ?_) ?_) (fun hn => ?_)
        fun m hm => .inl hm
      · exact hd.known x (((hk.ok r hr).sent _ hout q mem_cons_self).2 x h1 h2) fun _ => hleft
      · exact hd.attained.resolve_left fun h => hleft h.2
      · rcases hh with ⟨rfl, -⟩ | ⟨-, hnone, -⟩
        · exact ⟨hn, rfl⟩
        · exact absurd hnone hn
    exact hp.answered hr (by rwa [Tree.put_of_ne hpr.ne'])

/-- **The root reports the largest exit code**, in every run without timeouts in which no rank takes the status
    of a signaled task over a larger code from below. -/
theorem root_reports_largest_code {s₀ : Tree} (hw : 2 ≤ w) (hint : w < 2 ^ 31) (hn : 1 ≤ S.n)
    (hinfo : ∀ r < S.n, ReverseTree.reverseTreeInfo r S.n w = .ok (S.info r)) (hfresh : S.Fresh s₀)
    (htasks : ∀ r < S.n, S.tasks r ≠ [])
    (hs : S.machine.Reach (fun s a => a.timeout = false ∧ S.lasting s a = true) s₀ s) {m : Msg}
    (hm : m ∈ s.ctrl) (hroot : m.sender = 0) :
    (∀ x < S.n, S.own x ≤ m.stepRc ∧ (s.stepd x).stepRc ≤ m.stepRc) ∧ ∃ x < S.n, m.stepRc = S.own x := by
  have hS := nested_of_info hw hint hn hinfo
  have hk := hs.invariant (I := fun s => Kept S True s ∧ Coded S s) ⟨kept_of_fresh hfresh, ?_⟩
    fun s a t h ha hstep =>
      ⟨kept_step hS h.1 (fun _ r hr => by subst hr; cases ha.1) hstep, coded_step hS htasks h.1 h.2 ha.2 hstep⟩
  · obtain ⟨hleft, hrc⟩ := hk.2.ctrl m hm
    rw [hroot] at hleft hrc
    have hd := hk.2.ok 0 hn
    have hmax : ∀ x < S.n, S.own x ≤ m.stepRc := fun x hx => by
      have hbelow := hS.below_root
      rw [hrc]
      exact hd.known x ((hk.1.ok 0 hn).full trivial hleft x (by omega) (by omega)) fun _ => hleft
    refine ⟨fun x hx => ⟨hmax x hx, ?_⟩, hrc ▸ hd.attained.resolve_left fun h => hleft h.2⟩
    rcases (hk.2.ok x hx).attained with ⟨h0, -⟩ | ⟨y, hy, heq⟩
    · rw [h0]
      exact Nat.zero_le _
    · rw [heq]
      exact hmax y hy
  · refine ⟨fun r hr => ?_, fun m hm => by rw [hfresh.ctrl] at hm; cases hm⟩
    obtain ⟨-, hnone, hzero, hbits⟩ := hfresh.stepd r hr
    refine ⟨fun x hx hself => ?_, .inl ⟨hzero, hnone⟩⟩
    rcases hx with hx | ⟨i, -, hi, -⟩
    · exact absurd hnone (hself (by omega))
    · rw [bitTest_bitAlloc hbits] at hi
      cases hi

theorem root_reports_largest_code_two : ∃ s, (twoRanks 0 1792).machine.Reach
    (fun s a => a.timeout = false ∧ (twoRanks 0 1792).lasting s a = true) twoStepds s ∧
    ∃ m ∈ s.ctrl, m.sender = 0 ∧ (twoRanks 0 1792).own 1 ≤ m.stepRc := by
  obtain ⟨s, hs, hctrl⟩ := map_eq_some_iff.1 (show ((twoRanks 0 1792).machine.run twoStepds twoReports).map
    (·.ctrl) = some [⟨0, (0, 1), 1792⟩] by decide)
  have hm : ⟨0, (0, 1), 1792⟩ ∈ s.ctrl := hctrl ▸ mem_cons_self
  have hreach := Machine.Reach.of_run (P := fun s a => a.timeout = false ∧ (twoRanks 0 1792).lasting s a = true)
    twoReports .start (by decide) hs
  exact ⟨s, hreach, _, hm, rfl, ((root_reports_largest_code (by decide) (by decide) (by decide)
    (info_twoRanks 0 1792) (fresh_twoRanks 0 1792) (fun _ _ => nofun) hreach hm rfl).1 1 (by decide)).1⟩

/-- **A signaled task hides the code from below**: the second rank ends with exit code 7, the first one is killed, and
    the root reports signal 9 alone. -/
theorem signaled_task_hides_code : ∃ s, (twoRanks 9 1792).machine.Reach (fun _ a => a.timeout = false) twoStepds s ∧
    ∃ m ∈ s.ctrl, m.sender = 0 ∧ m.stepRc < (twoRanks 9 1792).own 1 := by
  obtain ⟨s, hs, hctrl⟩ := map_eq_some_iff.1 (show ((twoRanks 9 1792).machine.run twoStepds twoReports).map
    (·.ctrl) = some [⟨0, (0, 1), 9⟩] by decide)
  exact ⟨s, Machine.Reach.of_run twoReports .start (by decide) hs, _, hctrl ▸ mem_cons_self, rfl, by decide⟩

/-! ## Not before its time -/

/-- The range is not empty, and all its ranks have stopped waiting. -/
def Over (S : Step) (s : Tree) (q : Int × Int) : Prop :=
  q.1 ≤ q.2 ∧ ∀ x, q.1 ≤ x → x ≤ q.2 → ∃ r < S.n, x = (r : Nat) ∧ (s.stepd r).outbox ≠ none

/-- Others know of a rank only when it has stopped waiting. -/
structure Exited (S : Step) (s : Tree) : Prop where
  known : ∀ r < S.n, ∀ x, Knows r (s.stepd r).bits x → x = r ∨ Over S s (x, x)
  told : ∀ m ∈ s.ctrl, Over S s m.range

theorem Over.mono (h : Over S s q) (hout : ∀ r, (s.stepd r).outbox ≠ none → (t.stepd r).outbox ≠ none) :
    Over S t q := by
  refine ⟨h.1, fun x h1 h2 => ?_⟩
  obtain ⟨r, hr, hx, hleft⟩ := h.2 x h1 h2
  exact ⟨r, hr, hx, hout r hleft⟩

theorem Exited.put (h : Exited S s) (ht : t.stepd = update s.stepd r d)
    (hout : (s.stepd r).outbox ≠ none → d.outbox ≠ none)
    (hbits : ∀ x, Knows r d.bits x → Knows r (s.stepd r).bits x ∨ Over S s (x, x))
    (hctrl : ∀ m ∈ t.ctrl, m ∈ s.ctrl ∨ Over S s m.range) : Exited S t := by
  have hmono : ∀ p, (s.stepd p).outbox ≠ none → (t.stepd p).outbox ≠ none := by
    intro p hp
    rcases eq_or_ne p r with rfl | hne
    · rw [ht, update_self]
      exact hout hp
    · rwa [ht, update_of_ne hne]
  refine ⟨fun p hp x hx => ?_, fun m hm => ((hctrl m hm).elim (h.told m) id).mono hmono⟩
  have hknown : x = p ∨ Over S s (x, x) := by
    rcases eq_or_ne p r with rfl | hne
    · rw [ht, update_self] at hx
      exact (hbits x hx).elim (h.known p hp x) .inr
    · rw [ht, update_of_ne hne] at hx
      exact h.known p hp x hx
  exact hknown.imp_right fun hx => hx.mono hmono

section

variable (h : Exited S s) (hk : Kept S strict s) (hr : r < S.n) (hout : (s.stepd r).outbox = some (q :: rest))
include h hk hr hout

/-- A rank that reports has stopped waiting, as have those it knows of. -/
theorem Exited.range : Over S s q := by
  obtain ⟨hle, hknows⟩ := (hk.ok r hr).sent _ hout q mem_cons_self
  refine ⟨hle, fun x h1 h2 => ?_⟩
  rcases h.known r hr x (hknows x h1 h2) with rfl | hx
  · exact ⟨r, hr, rfl, by simp [hout]⟩
  · exact hx.2 x le_rfl le_rfl

theorem Exited.report : Exited S (s.report r q rest) := by
  refine h.put rfl (fun _ => nofun) (fun _ => .inl) fun m hm => ?_
  rcases mem_append.1 hm with hm | hm
  · exact .inl hm
  · rw [mem_singleton.1 hm]
    exact .inr (h.range hk hr hout)

theorem Exited.answered (ok : Bool) : Exited S (s.answered r q rest ok) := by
  unfold Tree.answered
  split_ifs
  · exact h.put rfl (fun _ => nofun) (fun _ => .inl) fun _ => .inl
  · exact h.report hk hr hout
  · exact h.put rfl id (fun _ => .inl) fun _ => .inl

end

theorem exited_step (hS : S.Nested) (hk : Kept S strict s) (h : Exited S s) (hstep : S.machine.step s a = some t) :
    Exited S t := by
  obtain ⟨r, timeout, l, rfl, hr, -, -, rfl, -⟩ |
    ⟨r, reach, reply, q, rest, rfl, hr, hout, ⟨-, rfl⟩ | ⟨p, d', ok, -, hpr, hh, -, rfl⟩⟩ :=
    step_cases hS hk.ok hstep
  · exact h.put rfl (fun _ => nofun) (fun _ => .inl) fun _ => .inl
  · exact h.report hk hr hout
  · have hput : Exited S (s.put p d') := by
      rcases hh with ⟨rfl, -⟩ | ⟨-, hnone, b, rfl, -, hb⟩
      · exact h.put rfl id (fun _ => .inl) fun _ => .inl
      · -- the parent has taken the range over
        refine h.put rfl id (fun x hx => ((hb x).1 hx).imp_right fun ⟨h1, h2⟩ => ?_) fun _ => .inl
        refine ⟨le_rfl, fun y h3 h4 => (h.range hk hr hout).2 y (h1.trans h3) (h4.trans h2)⟩
    exact hput.answered (hk.heard (hpr.trans hr) hh) hr (by rwa [Tree.put_of_ne hpr.ne']) _

/-- **No rank is reported before its time.**  Whatever times out or fails, a message to the controller is about ranks
    of the step that have all stopped waiting, so no node is taken for done while its `slurmstepd` waits. -/
theorem reported_after_exit {s₀ : Tree} (hw : 2 ≤ w) (hint : w < 2 ^ 31) (hn : 1 ≤ S.n)
    (hinfo : ∀ r < S.n, ReverseTree.reverseTreeInfo r S.n w = .ok (S.info r)) (hfresh : S.Fresh s₀)
    (hs : S.machine.Reach (fun _ _ => True) s₀ s) {m : Msg} (hm : m ∈ s.ctrl) :
    (0 ≤ m.range.1 ∧ m.range.1 ≤ m.range.2 ∧ m.range.2 < S.n) ∧
      ∀ r : Nat, m.range.1 ≤ r → r ≤ m.range.2 → (s.stepd r).outbox ≠ none := by
  have hS := nested_of_info hw hint hn hinfo
  have hinv := hs.invariant (I := fun s => Kept S False s ∧ Exited S s) ⟨kept_of_fresh hfresh, ?_⟩
    fun s a t h _ hstep => ⟨kept_step hS h.1 False.elim hstep, exited_step hS h.1 h.2 hstep⟩
  · obtain ⟨hle, hover⟩ := hinv.2.told m hm
    obtain ⟨first, -, hfirst, -⟩ := hover _ le_rfl hle
    obtain ⟨last, hlast, heq, -⟩ := hover _ hle le_rfl
    refine ⟨by omega, fun r h1 h2 => ?_⟩
    obtain ⟨r', -, hr', hout⟩ := hover r h1 h2
    rwa [Nat.cast_inj.1 hr']
  · refine ⟨?_, by simp [hfresh.ctrl]⟩
    rintro r hr x (rfl | ⟨i, -, hi, -⟩)
    · exact .inl rfl
    · rw [bitTest_bitAlloc (hfresh.stepd r hr).2.2.2] at hi
      cases hi

/-- The second rank does not reach the first, which waits, and reports to the controller. -/
def rootMissed : List Act := .leave 1 false :: replicate 5 (.attempt 1 false true)

theorem reported_after_exit_two : ∃ s, (twoRanks 0 0).machine.run twoStepds rootMissed = some s ∧
    (s.stepd 0).outbox = none ∧ s.ctrl = [⟨1, (1, 1), 0⟩] ∧ (s.stepd 1).outbox ≠ none := by
  refine ⟨_, rfl, by decide, by decide, ?_⟩
  exact (reported_after_exit (m := ⟨1, (1, 1), 0⟩) (by decide) (by decide) (by decide) (info_twoRanks 0 0)
    (fresh_twoRanks 0 0) (.of_run rootMissed .start (by decide) rfl) (by decide)).2 1 (by decide) (by decide)

end Slurmpp.Slurmstepd
