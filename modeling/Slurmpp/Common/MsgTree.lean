/-
  The fan-out of a message over a tree of hosts (`set_span` of `src/common/slurm_protocol_api.c`, `forward_msg`
  and `start_msg_tree` of `src/common/forward.c`).

  1. **Spans** — `set_span` deals the hosts out to the branches of one hop (`setSpan_spec`, `le_capacity`).
  2. **`start_msg_tree`** uses the number of RUNNING threads as the index of the next branch.  The launch that
     raises it to `k + 1` for the first time has read `span[k]` last, and so has taken its full share: with `level`
     the highest number so far, the first `level` branches are full (`Spread`).
  3. **`forward_msg`** hands `set_span` the count of the header, which has 16 bits: for 65536 hosts or more it
     reads behind the last branch (`forwardMsg_eq_none`).
-/
import Slurmpp.Lib.Machine
import Slurmpp.Lib.Blocks

namespace Slurmpp.MsgTree

open Blocks List Option Nat

variable {α : Type} {w n i left total fuel : Nat} {span : List Nat}

/-! ## `set_span` -/

/-- The loop over the branches, `n` of them from `i` on: the spans and what is left. -/
def spanFor (w : Nat) : Nat → Nat → List Nat → Nat → List Nat × Nat
  | 0, _, span, left => (span, left)
  | n + 1, i, span, left =>
    if left ≤ w - i then
      if span.getD i 0 = 0 then (span, 0) else (span.modify i (· + left), 0)
    else if left ≤ w then (span.modify i (· + left), 0)
    else spanFor w n (i + 1) (span.modify i (· + w)) (left - w)

/-- `while (left > 0)`; `none` when `fuel` rounds are not enough. -/
def spanWhile (w : Nat) : Nat → List Nat → Nat → Option (List Nat)
  | 0, span, left => if left = 0 then some span else none
  | fuel + 1, span, left =>
    if left = 0 then some span
    else spanWhile w fuel (spanFor w w 0 span left).1 (spanFor w w 0 span left).2

/-- `set_span`, with a `tree_width` that is not zero. -/
def setSpan (total w : Nat) : Option (List Nat) :=
  if total ≤ w then some (replicate w 0) else spanWhile w total (replicate w 0) total

theorem sum_modify_add {a : Nat} (hi : i < span.length) : (span.modify i (· + a)).sum = span.sum + a := by
  induction span generalizing i with
  | nil => exact absurd hi (not_lt_zero i)
  | cons x span ih =>
    cases i with
    | zero =>
      rw [modify_zero_cons, sum_cons, sum_cons]
      omega
    | succ i =>
      rw [modify_succ_cons, sum_cons, sum_cons, ih (lt_of_succ_lt_succ hi)]
      omega

/-- What a loop makes of the spans: nothing is invented, and what is dropped at its end is at most one
    host for each branch. -/
structure Dealt (w : Nat) (span : List Nat) (left : Nat) (span' : List Nat) (left' : Nat) : Prop where
  length : span'.length = span.length
  left_le : left' ≤ left
  le : span'.sum + left' ≤ span.sum + left
  ge : span.sum + left ≤ span'.sum + left' + if left' = 0 then w else 0

theorem spanFor_dealt (hi : i + n = w) (hlen : span.length = w) :
    Dealt w span left (spanFor w n i span left).1 (spanFor w n i span left).2 ∧
      (0 < n → 0 < left → (spanFor w n i span left).2 < left) := by
  induction n generalizing i span left with
  | zero => exact ⟨⟨rfl, le_rfl, le_rfl, le_add_right _ _⟩, fun h => absurd h (lt_irrefl 0)⟩
  | succ n ih =>
    have hsum : ∀ a, (span.modify i (· + a)).sum = span.sum + a := fun a => sum_modify_add (by omega)
    rw [spanFor]
    split_ifs with hfit hzero hlast
    · -- the branches that are left take one host each
      exact ⟨⟨rfl, zero_le _, by simp, by simp; omega⟩, fun _ h => h⟩
    · exact ⟨⟨length_modify _ _ _, zero_le _, by simp [hsum], by simp [hsum]⟩, fun _ h => h⟩
    · exact ⟨⟨length_modify _ _ _, zero_le _, by simp [hsum], by simp [hsum]⟩, fun _ h => h⟩
    · obtain ⟨hd, -⟩ := @ih (i + 1) (left - w) (span.modify i (· + w)) (by omega)
        (by rw [length_modify, hlen])
      have hless := hd.left_le
      have hle := hd.le
      have hge := hd.ge
      rw [hsum] at hle hge
      exact ⟨⟨hd.length.trans (length_modify _ _ _), by omega, by omega, by omega⟩, fun _ _ => by omega⟩

theorem spanWhile_zero : spanWhile w fuel span 0 = some span := by
  cases fuel with
  | zero | succ => rfl

theorem spanWhile_dealt (hw : 0 < w) (hlen : span.length = w) (hfuel : left ≤ fuel) :
    ∃ span', spanWhile w fuel span left = some span' ∧ span'.length = w ∧
      span'.sum ≤ span.sum + left ∧ span.sum + left ≤ span'.sum + w := by
  induction fuel generalizing span left with
  | zero =>
    obtain rfl : left = 0 := by omega
    exact ⟨span, spanWhile_zero, hlen, by omega, by omega⟩
  | succ fuel ih =>
    by_cases hleft : left = 0
    · subst hleft
      exact ⟨span, spanWhile_zero, hlen, by omega, by omega⟩
    · obtain ⟨hd, hless⟩ : Dealt w span left _ _ ∧ _ := spanFor_dealt (zero_add w) hlen
      have hless := hless hw (by omega)
      have hle := hd.le
      have hge := hd.ge
      rw [spanWhile, if_neg hleft]
      by_cases hrest : (spanFor w w 0 span left).2 = 0
      · rw [hrest] at hle hge ⊢
        exact ⟨(spanFor w w 0 span left).1, spanWhile_zero, hd.length.trans hlen, by omega,
          by simpa using hge⟩
      · rw [if_neg hrest] at hge
        obtain ⟨span', hspan', hlen', h1, h2⟩ := ih (hd.length.trans hlen)
          (show (spanFor w w 0 span left).2 ≤ fuel by omega)
        exact ⟨span', hspan', hlen', by omega, by omega⟩

/-- **`set_span` returns**, and deals out all hosts but at most one for each branch. -/
theorem setSpan_spec (hw : 0 < w) (total : Nat) : ∃ span, setSpan total w = some span ∧
    span.length = w ∧ span.sum ≤ total ∧ total ≤ span.sum + w := by
  rw [setSpan]
  split_ifs with hfew
  · exact ⟨_, rfl, length_replicate, by simp, by omega⟩
  · have hzeros : (replicate w 0).length = w := length_replicate
    obtain ⟨span, hspan, hlen, h1, h2⟩ := spanWhile_dealt hw hzeros (le_refl total)
    rw [sum_replicate, smul_zero, zero_add] at h1 h2
    exact ⟨span, hspan, hlen, h1, h2⟩

def share (span : List Nat) (i : Nat) : Nat := 1 + span.getD i 0

theorem capacity_eq (span : List Nat) : start (share span) span.length = span.length + span.sum := by
  induction span with
  | nil => rfl
  | cons x span ih =>
    have hrest : (fun i => share (x :: span) (1 + i)) = share span := by
      funext i
      rw [share, share, add_comm 1 i, getD_cons_succ]
    rw [length_cons, add_comm, start_add, hrest, ih, sum_cons]
    simp only [start, share, getD_cons_zero]
    omega

theorem le_capacity (h : total ≤ span.sum + w) (hlen : span.length = w) : total ≤ start (share span) w := by
  rw [← hlen, capacity_eq]
  omega

/-! ## `forward_msg` -/

/-- Up to `k` hosts are shifted off the list: what the branch takes, and what remains. -/
def shiftUpTo : Nat → List α → List α × List α
  | 0, hl => ([], hl)
  | _ + 1, [] => ([], [])
  | k + 1, name :: hl => (name :: (shiftUpTo k hl).1, (shiftUpTo k hl).2)

theorem shiftUpTo_eq (k : Nat) (hl : List α) : shiftUpTo k hl = (hl.take k, hl.drop k) := by
  induction k generalizing hl with
  | zero => rfl
  | succ k ih =>
    cases hl with
    | nil => rfl
    | cons name hl => rw [shiftUpTo, ih, take_succ_cons, drop_succ_cons]

/-- The loop over the list (`fuel` bounds its length), with `thr_count` threads so far: the lists that
    are handed to the threads; `none` when it leaves `forward_msg[]`, which has `cnt` entries, or
    `span[]`. -/
def forwardLoop (cnt : Nat) (span : List Nat) : Nat → Nat → List α → Option (List (List α))
  | _, _, [] => some []
  | 0, _, _ :: _ => none
  | fuel + 1, thrCount, name :: hl =>
    if thrCount < cnt then
      match span[thrCount]? with
      | none => none
      | some k =>
        (forwardLoop cnt span fuel (thrCount + 1) (shiftUpTo k hl).2).map
          ((name :: (shiftUpTo k hl).1) :: ·)
    else none

/-- `forward_msg`, where `cnt` is `header->forward.cnt`. -/
def forwardMsg (w : Nat) (cnt : BitVec 16) (hl : List α) : Option (List (List α)) :=
  (setSpan cnt.toNat w).bind fun span => forwardLoop cnt.toNat span hl.length 0 hl

theorem getElem?_eq_share (h : i < span.length) : span[i]? = some (share span i - 1) := by
  rw [getElem?_eq_getElem h, share, getD_eq_getElem?_getD, getElem?_eq_getElem h, getD_some, Nat.add_sub_cancel_left]

theorem forwardLoop_covers {cnt k : Nat} {hl : List α} (hlen : span.length = w) (hfuel : hl.length ≤ fuel)
    (hcnt : k + hl.length ≤ cnt) (hcap : start (share span) k + hl.length ≤ start (share span) w) :
    ∃ lists, forwardLoop cnt span fuel k hl = some lists ∧ lists.flatten = hl := by
  induction fuel generalizing k hl with
  | zero =>
    obtain rfl := eq_nil_of_length_eq_zero (Nat.le_zero.1 hfuel)
    exact ⟨[], rfl, rfl⟩
  | succ fuel ih =>
    cases hl with
    | nil => exact ⟨[], rfl, rfl⟩
    | cons name hl =>
      rw [length_cons] at hfuel hcnt hcap
      have hk : k < w := by
        by_contra hge
        have := start_mono (f := share span) (Nat.le_of_not_lt hge)
        omega
      have hshare : 1 ≤ share span k := Nat.le_add_right 1 _
      have hnext := start_succ (share span) k
      have hrest : (hl.drop (share span k - 1)).length = hl.length - (share span k - 1) := length_drop
      obtain ⟨lists, hlists, hflat⟩ := @ih (k + 1) (hl.drop (share span k - 1)) (by omega) (by omega) (by
        rw [hrest, hnext]
        have := start_mono (f := share span) (show k + 1 ≤ w from hk)
        omega)
      refine ⟨(name :: hl.take (share span k - 1)) :: lists, ?_, ?_⟩
      · rw [forwardLoop, if_pos (by omega), getElem?_eq_share (by omega)]
        dsimp only
        rw [shiftUpTo_eq, hlists]
        rfl
      · rw [flatten_cons, hflat, cons_append, take_append_drop]

theorem forwardLoop_pieces {cnt k : Nat} {hl : List α} {lists : List (List α)}
    (h : forwardLoop cnt span fuel k hl = some lists) :
    lists.flatten = hl ∧ ∀ l ∈ lists, l ≠ [] ∧ l.length ≤ span.sum + 1 := by
  fun_induction forwardLoop generalizing lists with
  | case1 =>
    cases h
    exact ⟨rfl, forall_mem_nil _⟩
  | case2 | case3 | case5 => cases h
  | case4 fuel k name hl hcnt n hk ih =>
    rw [shiftUpTo_eq] at h ih
    obtain ⟨rest, hrest, rfl⟩ := map_eq_some_iff.1 h
    obtain ⟨hflat, hpieces⟩ := ih hrest
    refine ⟨?_, forall_mem_cons.2 ⟨⟨cons_ne_nil _ _, ?_⟩, hpieces⟩⟩
    · rw [flatten_cons, hflat, cons_append, take_append_drop]
    · have hsum : n ≤ span.sum := single_le_sum (by simp) n (mem_of_getElem? hk)
      rw [length_cons, length_take]
      omega

theorem forwardMsg_pieces {cnt : BitVec 16} {hl : List α} {lists : List (List α)} (hw : 0 < w)
    (h : forwardMsg w cnt hl = some lists) : lists.flatten = hl ∧ ∀ l ∈ lists, l ≠ [] ∧ l.length ≤ 2 ^ 16 := by
  obtain ⟨span, hspan, -, hle, -⟩ := setSpan_spec hw cnt.toNat
  rw [forwardMsg, hspan, bind_some] at h
  obtain ⟨hflat, hpieces⟩ := forwardLoop_pieces h
  refine ⟨hflat, fun l hl => ⟨(hpieces l hl).1, (hpieces l hl).2.trans ?_⟩⟩
  omega

theorem forwardLoop_eq_none {cnt k : Nat} {hl : List α} (hlen : span.length = w)
    (hcap : start (share span) w < start (share span) k + hl.length) (hk : k ≤ w) :
    forwardLoop cnt span fuel k hl = none := by
  fun_induction forwardLoop with
  | case1 fuel k =>
    have := start_mono (f := share span) hk
    rw [length_nil] at hcap
    omega
  | case2 | case3 | case5 => rfl
  | case4 fuel k name hl hcnt n hn ih =>
    obtain ⟨hlt, -⟩ := List.getElem?_eq_some_iff.1 hn
    cases hn.symm.trans (getElem?_eq_share hlt)
    have hnext := start_succ (share span) k
    have hshare : 1 ≤ share span k := le_add_right 1 _
    rw [length_cons] at hcap
    rw [shiftUpTo_eq] at ih ⊢
    rw [ih ?_ (by omega)]
    · rfl
    · rw [length_drop, hnext]
      -- a branch that takes all that is left would have room for it
      by_contra hge
      have := start_mono (f := share span) (show k + 1 ≤ w by omega)
      omega

theorem forwardMsg_eq_none (hw : 0 < w) (hw' : w < 2 ^ 16) {hl : List α} (hlarge : 2 ^ 16 ≤ hl.length) :
    forwardMsg w (BitVec.ofNat 16 hl.length) hl = none := by
  obtain ⟨span, hspan, hlen, hle, -⟩ := setSpan_spec hw (BitVec.ofNat 16 hl.length).toNat
  have hcap := capacity_eq span
  rw [hlen] at hcap
  rw [forwardMsg, hspan, bind_some]
  rw [BitVec.toNat_ofNat] at hle
  exact forwardLoop_eq_none hlen (by rw [start_zero]; omega) (zero_le w)

theorem forwardMsg_covers_iff (hw : 0 < w) (hw' : w < 2 ^ 16) (hl : List α) :
    (∃ lists, forwardMsg w (BitVec.ofNat 16 hl.length) hl = some lists ∧ lists.flatten = hl) ↔
      hl.length < 2 ^ 16 := by
  constructor
  · rintro ⟨lists, hlists, -⟩
    by_contra hlarge
    rw [forwardMsg_eq_none hw hw' (Nat.le_of_not_lt hlarge)] at hlists
    cases hlists
  · intro hsmall
    obtain ⟨span, hspan, hlen, -, hge⟩ := setSpan_spec hw (BitVec.ofNat 16 hl.length).toNat
    rw [forwardMsg, hspan, bind_some]
    rw [BitVec.toNat_ofNat, Nat.mod_eq_of_lt hsmall] at *
    exact forwardLoop_covers hlen le_rfl (by omega) (by
      rw [start_zero, Nat.zero_add]
      exact le_capacity hge hlen)

/-! ## `start_msg_tree` -/

/-- Where the caller is: at the head of the outer loop, in the inner one, before `thr_count++`, before
    `pthread_create`, behind the loops, or outside of `span[]`. -/
inductive Pc
  | top
  | fill
  | launch
  | create
  | done
  | outside
deriving DecidableEq

/-- The caller's variables, the lists handed to threads so far, and the number of threads that have not
    ended. -/
structure Tree (α : Type) where
  hl : List α
  thrCount : Nat
  j : Nat
  treeHl : List α
  launched : List (List α)
  running : Nat
  pc : Pc

/-- A move of the caller, or the end of a thread (`(*fwd_tree->p_thr_count)--`). -/
inductive Move
  | caller
  | finish
deriving DecidableEq

def callerStep (span : List Nat) (t : Tree α) : Option (Tree α) :=
  match t.pc with
  | .top =>
    match t.hl with
    | [] => some { t with pc := .done }
    | name :: hl => some { t with hl := hl, treeHl := [name], j := 0, pc := .fill }
  | .fill =>
    -- the condition of the loop reads thr_count anew each time
    match span[t.thrCount]? with
    | none => some { t with pc := .outside }
    | some k =>
      if t.j < k then
        match t.hl with
        | [] => some { t with pc := .launch }
        | name :: hl => some { t with hl := hl, treeHl := t.treeHl ++ [name], j := t.j + 1 }
      else some { t with pc := .launch }
  | .launch => some { t with thrCount := t.thrCount + 1, pc := .create }
  | .create =>
    some { t with launched := t.launched ++ [t.treeHl], treeHl := [], running := t.running + 1, pc := .top }
  | .done => none
  | .outside => none

def startMsgTree (span : List Nat) : Machine (Tree α) Move where
  step t m :=
    match m with
    | .caller => callerStep span t
    | .finish =>
      if 0 < t.running then some { t with running := t.running - 1, thrCount := t.thrCount - 1 } else none

def Tree.initial (hl : List α) : Tree α := ⟨hl, 0, 0, [], [], 0, .top⟩

/-- What holds at each place, when `level` is the highest number of threads so far: the first `level`
    branches are full, unless no host is left. -/
def Tree.Stage (span : List Nat) (level : Nat) (t : Tree α) : Prop :=
  match t.pc with
  | .top => t.treeHl = [] ∧ (t.hl = [] ∨ start (share span) level ≤ t.launched.flatten.length)
  | .fill => t.treeHl.length = t.j + 1 ∧ start (share span) level ≤ t.launched.flatten.length
  | .launch => start (share span) level ≤ t.launched.flatten.length ∧
      (t.hl = [] ∨ (t.thrCount = level → share span level ≤ t.treeHl.length))
  | .create => t.hl = [] ∨ start (share span) level ≤ t.launched.flatten.length + t.treeHl.length
  | .done => t.treeHl = [] ∧ t.hl = []
  | .outside => False

/-- **The invariant.** -/
structure Tree.Spread (span : List Nat) (hosts : List α) (level : Nat) (t : Tree α) : Prop where
  covers : t.launched.flatten ++ t.treeHl ++ t.hl = hosts
  count : t.thrCount = t.running + if t.pc = .create then 1 else 0
  le_level : t.thrCount ≤ level
  stage : t.Stage span level

variable {hosts : List α} {t t' : Tree α} {level : Nat}

section

variable (h : t.Spread span hosts level)
include h

theorem Tree.Spread.length :
    t.launched.flatten.length + t.treeHl.length + t.hl.length = hosts.length := by
  rw [← h.covers, length_append, length_append]

/-- **While hosts are handed out there is a branch.** -/
theorem Tree.Spread.thrCount_lt (hpc : t.pc = .fill)
    (hcap : hosts.length ≤ start (share span) span.length) : t.thrCount < span.length := by
  have hstage := h.stage
  rw [Stage, hpc] at hstage
  obtain ⟨hj, hfull⟩ := hstage
  have hlen := h.length
  have hle := h.le_level
  by_contra hge
  have := start_mono (f := share span) (show span.length ≤ level by omega)
  omega

theorem Tree.Spread.caller
    (hcap : hosts.length ≤ start (share span) span.length) (hstep : callerStep span t = some t') :
    ∃ level', t'.Spread span hosts level' := by
  obtain ⟨hcov, hcount, hle, hstage⟩ := id h
  unfold Stage at hstage
  revert hstep
  fun_cases callerStep with
  | case1 hpc hhl =>
    rintro ⟨⟩
    rw [hpc] at hstage hcount
    exact ⟨level, hcov, hcount, hle, hstage.1, hhl⟩
  | case2 hpc name hl hhl =>
    rintro ⟨⟩
    rw [hpc] at hstage hcount
    obtain ⟨hnil, hfull⟩ := hstage
    refine ⟨level, ?_, hcount, hle, rfl, hfull.resolve_left (by simp [hhl])⟩
    rw [← hcov, hnil, hhl, append_nil, append_assoc]
    rfl
  | case3 hpc hk => exact nomatch hk.symm.trans (getElem?_eq_share (h.thrCount_lt hpc hcap))
  | case4 hpc k hk hmore hhl =>
    rintro ⟨⟩
    rw [hpc] at hstage hcount
    exact ⟨level, hcov, hcount, hle, hstage.2, .inl hhl⟩
  | case5 hpc k hk hmore name hl hhl =>
    rintro ⟨⟩
    rw [hpc] at hstage hcount ⊢
    obtain ⟨hj, hfull⟩ := hstage
    refine ⟨level, ?_, hcount, hle, ?_, hfull⟩
    · rw [← hcov, hhl]
      simp
    · show (t.treeHl ++ [name]).length = t.j + 1 + 1
      rw [length_append, hj, length_singleton]
  | case6 hpc k hk hmore =>
    rintro ⟨⟩
    have hlt := h.thrCount_lt hpc hcap
    rw [hpc] at hstage hcount
    obtain ⟨hj, hfull⟩ := hstage
    cases hk.symm.trans (getElem?_eq_share hlt)
    refine ⟨level, hcov, hcount, hle, hfull, .inr fun hlevel => ?_⟩
    have hlevel : t.thrCount = level := hlevel
    show share span level ≤ t.treeHl.length
    rw [← hlevel, hj]
    omega
  | case7 hpc =>
    rintro ⟨⟩
    rw [hpc] at hstage hcount
    obtain ⟨hfull, htake⟩ := hstage
    have hcount' : t.thrCount + 1 = t.running + 1 := by
      rw [hcount]
      rfl
    by_cases hlevel : t.thrCount = level
    · -- the first launch at this level
      refine ⟨level + 1, hcov, hcount', by show t.thrCount + 1 ≤ _; omega, htake.imp_right fun htake => ?_⟩
      have := htake hlevel
      rw [start_succ]
      show _ ≤ t.launched.flatten.length + t.treeHl.length
      omega
    · refine ⟨level, hcov, hcount', by show t.thrCount + 1 ≤ _; omega, .inr ?_⟩
      show _ ≤ t.launched.flatten.length + t.treeHl.length
      omega
  | case8 hpc =>
    rintro ⟨⟩
    rw [hpc] at hstage hcount
    refine ⟨level, ?_, hcount, hle, rfl, hstage.imp_right fun hfull => ?_⟩
    · rw [← hcov]
      simp
    · show _ ≤ (t.launched ++ [t.treeHl]).flatten.length
      rw [flatten_append, flatten_singleton, length_append]
      exact hfull
  | case9 | case10 => exact nofun

theorem Tree.Spread.finish (hrun : 0 < t.running) :
    Tree.Spread span hosts level { t with running := t.running - 1, thrCount := t.thrCount - 1 } := by
  obtain ⟨hcov, hcount, hle, hstage⟩ := h
  refine ⟨hcov, ?_, by show t.thrCount - 1 ≤ level; omega, ?_⟩
  · show t.thrCount - 1 = t.running - 1 + _
    dsimp only
    omega
  · unfold Stage at *
    dsimp only
    cases hpc : t.pc with
    | launch =>
      rw [hpc] at hstage
      refine ⟨hstage.1, .inr fun hlevel => ?_⟩
      omega
    | top | fill | create | done | outside =>
      rw [hpc] at hstage
      exact hstage

end

theorem Tree.spread_initial : (Tree.initial hosts).Spread span hosts 0 :=
  ⟨rfl, rfl, le_rfl, rfl, .inr (zero_le _)⟩

/-- **In every run**, whenever the threads end. -/
theorem startMsgTree_spread (hcap : hosts.length ≤ start (share span) span.length)
    (h : (startMsgTree span).Reach (fun _ _ => True) (.initial hosts) t) : ∃ level, t.Spread span hosts level := by
  refine h.invariant (I := fun t => ∃ level, t.Spread span hosts level) ?_ ?_
  · exact ⟨0, Tree.spread_initial⟩
  · rintro s m u ⟨level, hs⟩ - hstep
    cases m with
    | caller => exact hs.caller hcap hstep
    | finish =>
      dsimp only [startMsgTree] at hstep
      split_ifs at hstep with hrun
      cases hstep
      exact ⟨level, hs.finish hrun⟩

/-- What the caller has to do still. -/
def Tree.rank (t : Tree α) : Nat :=
  5 * t.hl.length +
    match t.pc with
    | .top => 1
    | .fill => 4
    | .launch => 3
    | .create => 2
    | .done => 0
    | .outside => 0

theorem callerStep_rank (hpc : t.pc ≠ .outside) (hdone : t.pc ≠ .done) :
    ∃ t', callerStep span t = some t' ∧ (t'.pc ≠ .outside → t'.rank < t.rank) := by
  unfold Tree.rank
  fun_cases callerStep with
  | case1 | case4 | case6 | case7 | case8 => exact ⟨_, rfl, fun _ => by simp [*]⟩
  | case2 | case5 => exact ⟨_, rfl, fun _ => by simp [*, mul_add]⟩
  | case3 => exact ⟨_, rfl, fun hout => absurd rfl hout⟩
  | case9 h => exact absurd h hdone
  | case10 h => exact absurd h hpc

theorem callerStep_launched (h : callerStep span t = some t') :
    (t.pc = .create → t'.launched = t.launched ++ [t.treeHl] ∧ t'.running = t.running + 1) ∧
      (t.pc ≠ .create → t'.launched = t.launched ∧ t'.running = t.running) := by
  revert h
  fun_cases callerStep with
  | case8 hpc =>
    rintro ⟨⟩
    exact ⟨fun _ => ⟨rfl, rfl⟩, fun hne => absurd hpc hne⟩
  | case1 | case2 | case3 | case4 | case5 | case6 | case7 =>
    rintro ⟨⟩
    exact ⟨fun hc => by simp_all, fun _ => ⟨rfl, rfl⟩⟩
  | case9 | case10 => exact nofun

section

variable (h : t.Spread span hosts level)
include h

theorem Tree.Spread.ne_outside : t.pc ≠ .outside := by
  intro hpc
  have hstage := h.stage
  rw [Stage, hpc] at hstage
  exact hstage

theorem Tree.Spread.launched_eq (hpc : t.pc = .done) : t.launched.flatten = hosts := by
  have hstage := h.stage
  rw [Stage, hpc] at hstage
  rw [← h.covers, hstage.1, hstage.2, append_nil, append_nil]

theorem startMsgTree_ends (hcap : hosts.length ≤ start (share span) span.length) :
    ∃ n t', (startMsgTree span).run t (replicate n .caller) = some t' ∧ t'.pc = .done := by
  obtain ⟨n, t', hrun, -, hdone⟩ :=
    (startMsgTree span).run_of_rank (I := fun t => ∃ level, t.Spread span hosts level)
      (a := .caller) (by
        rintro s ⟨level, hs⟩ hdone
        obtain ⟨u, hu, hrank⟩ := callerStep_rank hs.ne_outside hdone
        obtain ⟨level', hlevel⟩ := hs.caller hcap hu
        exact ⟨u, hu, ⟨level', hlevel⟩, hrank hlevel.ne_outside⟩) ⟨level, h⟩
  exact ⟨n, t', hrun, hdone⟩

end

/-! ## The fan-out -/

/-- **Every host is handed to one branch.**  `set_span` makes room for all hosts; in every run of
    `start_msg_tree`, whenever its threads end, the lists handed out so far, the one being filled and what
    is left make up the host list, no branch beyond the last is read, and the loop ends with every host
    handed out; and `forward_msg` hands out its whole list if, and only if, the 16 bits of the header hold
    its length. -/
theorem message_fan_out (hw : 0 < w) (hw' : w < 2 ^ 16) (hl : List α) :
    (∀ total, ∃ span, setSpan total w = some span ∧ span.length = w ∧ total ≤ start (share span) w) ∧
      (∀ span, setSpan hl.length w = some span → ∀ t,
        (startMsgTree span).Reach (fun _ _ => True) (.initial hl) t →
          t.pc ≠ .outside ∧ t.launched.flatten ++ t.treeHl ++ t.hl = hl ∧
            (t.pc = .done → t.launched.flatten = hl) ∧
            ∃ n t', (startMsgTree span).run t (replicate n .caller) = some t' ∧ t'.pc = .done) ∧
      ((∃ lists, forwardMsg w (BitVec.ofNat 16 hl.length) hl = some lists ∧ lists.flatten = hl) ↔
        hl.length < 2 ^ 16) := by
  refine ⟨fun total => ?_, fun span hspan t hreach => ?_, forwardMsg_covers_iff hw hw' hl⟩
  · obtain ⟨span, hspan, hlen, -, hge⟩ := setSpan_spec hw total
    exact ⟨span, hspan, hlen, le_capacity hge hlen⟩
  · obtain ⟨span', hspan', hlen, -, hge⟩ := setSpan_spec hw hl.length
    obtain rfl : span' = span := some.inj (hspan'.symm.trans hspan)
    have hcap : hl.length ≤ start (share span') span'.length := hlen ▸ le_capacity hge hlen
    obtain ⟨level, hs⟩ := startMsgTree_spread hcap hreach
    exact ⟨hs.ne_outside, hs.covers, hs.launched_eq, startMsgTree_ends hs hcap⟩

/-- Two branches for five hosts. -/
theorem message_fan_out_five :
    (∃ lists, forwardMsg 2 (BitVec.ofNat 16 [1, 2, 3, 4, 5].length) [1, 2, 3, 4, 5] = some lists ∧
      lists.flatten = [1, 2, 3, 4, 5]) ∧
    forwardMsg 2 5 [1, 2, 3, 4, 5] = some [[1, 2, 3, 4], [5]] :=
  ⟨(message_fan_out (by decide) (by decide) [1, 2, 3, 4, 5]).2.2.mpr (by decide), by decide⟩

/-- The header of a list of 65596 hosts has count 60, and `forward_msg` at the default width of 50 reads
    `span[50]`. -/
theorem long_list_leaves_span :
    BitVec.ofNat 16 (range 65596).length = 60 ∧ forwardMsg 50 60 (range 65596) = none := by
  have hcnt : BitVec.ofNat 16 (range 65596).length = 60 := by
    rw [length_range]
    decide
  have hnone : forwardMsg 50 (BitVec.ofNat 16 (range 65596).length) (range 65596) = none :=
    forwardMsg_eq_none (by decide) (by decide) (by rw [length_range]; decide)
  rw [hcnt] at hnone
  exact ⟨hcnt, hnone⟩

end Slurmpp.MsgTree
