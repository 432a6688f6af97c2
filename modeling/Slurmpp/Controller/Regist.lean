/-
  Registration: a controller collects the names of its nodes and publishes its pool.

  When `part_size` names are in, `_regist_msg_proc` inserts the text of the pool, sets `ready` and FREES its buffers.
  What registration is for is `Registers`: after any messages `ready` is set exactly if `part_size` distinct names
  have come, the pool of the first of them was inserted once if so, and a repeated name changes nothing.

  But `find_exist` takes the first EMPTY slot for a hit: with `part_size ≥ 2` every name but the first counts as
  known, and with `part_size = 1` the next message reads freed memory.  `registers_iff` says exactly when it works.
-/
import Slurmpp.Lib.Machine
import Slurmpp.Controller.Datastr

namespace Slurmpp.Controller

open List

open Text (joined)

/-! ## The message handler -/

structure Regist where
  /-- `source` and `resource`; `none` once they are freed. -/
  buffers : Option (List Text × Text)
  numRegistRecv : Nat
  ready : Bool
deriving DecidableEq, Repr

/-- `_initialize`: `part_size + 1` empty slots, and the count with its comma (the argument
    `argv[4]` being the plain numeral of `part_size`). -/
def Cluster.initRegist (K : Cluster) : Regist where
  buffers := some (replicate (K.partSize + 1) [], Text.ofNat K.partSize ++ [','])
  numRegistRecv := 0
  ready := false

/-- `_regist_msg_proc` for the node name `target`: the new variables and the value inserted, if
    any; `none` when it reads freed memory or writes behind the last slot. -/
def Cluster.registMsgProc (K : Cluster) (g : Regist) (target : Text) : Option (Regist × Option Text) :=
  match g.buffers with
  | none => none
  | some (source, resource) =>
    match findExist source target K.partSize with
    | some _ => some (g, none)
    | none =>
      if g.numRegistRecv < source.length then
        let resource := resource ++ target
        if g.numRegistRecv + 1 = K.partSize then
          some (⟨none, g.numRegistRecv + 1, true⟩, some resource)
        else
          some (⟨some (source.set g.numRegistRecv target, resource ++ [',']), g.numRegistRecv + 1, g.ready⟩, none)
      else none

/-! ## What the handler does, whatever the partition size -/

/-- One name is filed and the next slot is empty. -/
def Regist.Stuck (g : Regist) : Prop :=
  ∃ source resource, g.buffers = some (source, resource) ∧ source.getD 0 [] ≠ [] ∧ source.getD 1 [] = []

/-- **Stuck**: with two or more names expected, every further message counts as known. -/
theorem Regist.Stuck.registMsgProc {K : Cluster} {g : Regist} (h : g.Stuck) (hK : 2 ≤ K.partSize)
    (target : Text) : K.registMsgProc g target = some (g, none) := by
  obtain ⟨source, resource, hb, h0, h1⟩ := h
  have hfind : ∃ i, findExist source target K.partSize = some i := by
    by_cases heq : source.getD 0 [] = target
    · exact ⟨0, findExist_of_first h0 heq⟩
    · have hsize : ¬K.partSize ≤ 1 := by omega
      exact ⟨1, by rw [findExist_of_second_empty h0 heq h1, if_neg hsize]⟩
  obtain ⟨i, hi⟩ := hfind
  simp only [Cluster.registMsgProc, hb, hi]

/-- The variables after a first name that is not also the last. -/
def Cluster.oneRegist (K : Cluster) (n : Text) : Regist where
  buffers := some ((replicate (K.partSize + 1) []).set 0 n, Text.ofNat K.partSize ++ [','] ++ n ++ [','])
  numRegistRecv := 1
  ready := false

theorem Cluster.registMsgProc_init (K : Cluster) (n : Text) :
    K.registMsgProc K.initRegist n =
      if K.partSize = 1 then some (⟨none, 1, true⟩, some (poolText [n])) else some (K.oneRegist n, none) := by
  have h0 : (replicate (K.partSize + 1) ([] : Text)).getD 0 [] = [] := by simp
  simp only [registMsgProc, initRegist, findExist_of_empty h0, length_replicate, Nat.zero_add,
    Nat.succ_pos, if_true, eq_comm]
  split_ifs with h1
  · rw [h1, poolText]
    simp [joined]
  · rfl

theorem Cluster.stuck_oneRegist (K : Cluster) {n : Text} (hn : n ≠ []) : (K.oneRegist n).Stuck := by
  refine ⟨_, _, rfl, ?_, ?_⟩
  · rw [replicate_succ, set_cons_zero, getD_cons_zero]
    exact hn
  · rw [replicate_succ, set_cons_zero, getD_cons_succ, getD_eq_getElem?_getD, getElem?_replicate]
    split <;> rfl

theorem Cluster.registMsgProc_oneRegist (K : Cluster) {n target : Text} (hK : K.partSize ≠ 1)
    (hn : n ≠ []) {g : Regist} {v : Option Text}
    (hr : K.registMsgProc (K.oneRegist n) target = some (g, v)) : g = K.oneRegist n ∧ v = none := by
  by_cases htwo : 2 ≤ K.partSize
  · rw [(K.stuck_oneRegist hn).registMsgProc htwo, Option.some.injEq, Prod.mk.injEq] at hr
    exact ⟨hr.1.symm, hr.2.symm⟩
  · have hzero : K.partSize = 0 := by omega
    simp only [registMsgProc, oneRegist, hzero] at hr
    cases hf : findExist ((replicate (0 + 1) ([] : Text)).set 0 n) target 0 with
    | some i =>
      simp only [hf, Option.some.injEq, Prod.mk.injEq] at hr
      exact ⟨by rw [← hr.1, oneRegist, hzero], hr.2.symm⟩
    | none =>
      rw [hf] at hr
      simp at hr

/-! ## Registration as a whole -/

/-- The variables, and every value inserted so far. -/
structure Desk where
  regist : Regist
  inserted : List Text
deriving DecidableEq, Repr

def registration (K : Cluster) : Machine Desk Text where
  step d target := (K.registMsgProc d.regist target).map fun (g, v) => ⟨g, d.inserted ++ v.toList⟩

def Cluster.desk (K : Cluster) : Desk := ⟨K.initRegist, []⟩

/-- The distinct names of a message sequence, in order of first arrival. -/
def firsts (msgs : List Text) : List Text :=
  msgs.foldl (fun seen n => if n ∈ seen then seen else seen ++ [n]) []

/-- **What registration is for.** -/
def Registers (K : Cluster) (msgs : List Text) : Prop :=
  ∀ pre, pre <+: msgs → ∃ d, (registration K).run K.desk pre = some d ∧
    (d.regist.ready = true ↔ K.partSize ≤ (firsts pre).length) ∧
    d.inserted = (if K.partSize ≤ (firsts pre).length then
      [poolText ((firsts pre).take K.partSize)] else []) ∧
    ∀ n ∈ pre, pre ++ [n] <+: msgs → (registration K).run K.desk (pre ++ [n]) = some d

theorem length_firsts_mono {pre msgs : List Text} (h : pre <+: msgs) :
    (firsts pre).length ≤ (firsts msgs).length := by
  obtain ⟨rest, rfl⟩ := h
  have hgrow : ∀ (rest seen : List Text), seen.length ≤
      (rest.foldl (fun seen n => if n ∈ seen then seen else seen ++ [n]) seen).length := by
    intro rest
    induction rest with
    | nil => exact fun seen => le_rfl
    | cons n rest ih =>
      intro seen
      rw [foldl_cons]
      refine le_trans ?_ (ih _)
      split_ifs
      · exact le_rfl
      · simp
  rw [firsts, firsts, foldl_append]
  exact hgrow rest _

theorem one_le_length_firsts (n : Text) (rest : List Text) : 1 ≤ (firsts (n :: rest)).length := by
  have hone : firsts [n] = [n] := by simp [firsts]
  have hmono : (firsts [n]).length ≤ (firsts (n :: rest)).length :=
    length_firsts_mono (prefix_append [n] rest)
  rw [hone] at hmono
  exact hmono

/-- **Two or more names expected**: after the first message nothing changes any more. -/
theorem run_of_two_le {K : Cluster} (hK : 2 ≤ K.partSize) {n : Text} (hn : n ≠ []) (rest : List Text) :
    (registration K).run K.desk (n :: rest) = some ⟨K.oneRegist n, []⟩ := by
  have hstay : (registration K).run ⟨K.oneRegist n, []⟩ rest = some ⟨K.oneRegist n, []⟩ := by
    induction rest with
    | nil => rfl
    | cons m rest ih =>
      have hstuck := (K.stuck_oneRegist hn).registMsgProc hK m
      simp only [Machine.run, registration, hstuck]
      exact ih
  have hfirst := K.registMsgProc_init n
  rw [if_neg (by omega)] at hfirst
  simp only [Machine.run, registration, Cluster.desk, hfirst]
  exact hstay

/-- **One name expected**: it is inserted at once, and any further message reads freed memory. -/
theorem run_of_one {K : Cluster} (hK : K.partSize = 1) (n : Text) (rest : List Text) :
    (registration K).run K.desk (n :: rest) = if rest = [] then some ⟨⟨none, 1, true⟩, [poolText [n]]⟩ else none := by
  have hfirst := K.registMsgProc_init n
  rw [if_pos hK] at hfirst
  simp only [Machine.run, registration, Cluster.desk, hfirst]
  cases rest with
  | nil | cons => rfl

/-- **When registration does what it is for.**  For non-empty names and `part_size ≥ 1`: as long as
    fewer than `part_size` distinct names come, and else only with `part_size = 1` and one message
    in all. -/
theorem registers_iff {K : Cluster} (hK : 1 ≤ K.partSize) {msgs : List Text}
    (hne : ∀ n ∈ msgs, n ≠ []) :
    Registers K msgs ↔
      (firsts msgs).length < K.partSize ∨ K.partSize = 1 ∧ msgs.length = 1 := by
  constructor
  · intro h
    by_contra hno
    simp only [not_or, not_lt] at hno
    obtain ⟨hfull, hnot⟩ := hno
    obtain ⟨d, hrun, hready, -, -⟩ := h msgs (prefix_refl msgs)
    cases msgs with
    | nil => exact absurd hfull (by simp [firsts]; omega)
    | cons n rest =>
      by_cases hone : K.partSize = 1
      · rw [run_of_one hone] at hrun
        split_ifs at hrun with hr
        exact hnot ⟨hone, by simp [hr]⟩
      · -- all names are in, but the code is stuck after the first
        rw [run_of_two_le (by omega) (hne n mem_cons_self)] at hrun
        cases hrun
        exact absurd (hready.2 hfull) (by simp [Cluster.oneRegist])
  · rintro (hfew | ⟨hone, hlen⟩) pre hpre
    · have hpre' : ¬K.partSize ≤ (firsts pre).length := by
        have := length_firsts_mono hpre
        omega
      rw [if_neg hpre']
      cases pre with
      | nil => exact ⟨K.desk, rfl, by simp [Cluster.desk, Cluster.initRegist, hpre'], rfl, by simp⟩
      | cons n rest =>
        have htwo : 2 ≤ K.partSize := by
          have := one_le_length_firsts n rest
          omega
        have hn : n ≠ [] := hne n (hpre.subset mem_cons_self)
        refine ⟨_, run_of_two_le htwo hn rest, by simp [Cluster.oneRegist, hpre'], rfl, ?_⟩
        intro m _ _
        exact run_of_two_le htwo hn (rest ++ [m])
    · obtain ⟨n, rfl⟩ := length_eq_one_iff.1 hlen
      cases pre with
      | nil =>
        refine ⟨K.desk, rfl, ?_, ?_, by simp⟩ <;> simp [firsts, Cluster.desk, Cluster.initRegist] <;>
          omega
      | cons m rest =>
        obtain ⟨rfl, hrest⟩ := cons_prefix_cons.1 hpre
        obtain rfl : rest = [] := prefix_nil.1 hrest
        refine ⟨_, by rw [run_of_one hone, if_pos rfl], ?_, ?_, ?_⟩
        · simp [firsts, hone]
        · simp [firsts, hone]
        · intro k _ hk
          have := hk.length_le
          simp at this

theorem registers_one : (∀ n ∈ ["n1".toList], n ≠ []) ∧ Registers ⟨1, ["a".toList]⟩ ["n1".toList] :=
  ⟨by decide, (registers_iff (K := ⟨1, ["a".toList]⟩) le_rfl (by decide)).2 (.inr ⟨rfl, rfl⟩)⟩

/-- Two nodes register at a controller with `part_size = 2`: it never gets ready, and inserts
    nothing. -/
theorem registration_stuck :
    ¬Registers ⟨2, ["a".toList]⟩ ["n1".toList, "n2".toList] ∧
      (registration ⟨2, ["a".toList]⟩).run (Cluster.desk ⟨2, ["a".toList]⟩)
        ["n1".toList, "n2".toList] =
      some ⟨⟨some (["n1".toList, [], []], "2,n1,".toList), 1, false⟩, []⟩ := by
  refine ⟨fun h => ?_, by decide⟩
  obtain ⟨d, hrun, hready, -⟩ := h _ (prefix_refl _)
  have hd : d = ⟨⟨some (["n1".toList, [], []], "2,n1,".toList), 1, false⟩, []⟩ :=
    Option.some.inj (hrun.symm.trans (by decide))
  subst hd
  exact absurd (hready.2 (by decide)) (by decide)

end Slurmpp.Controller
