/-
  No two jobs run on one core.  The invariant, for the jobs that run (`PartOK`):

  * no two jobs of a partition share a core                        — `clash`;
  * no job of a partition shares a core with a shadow on it        — `shade`;
  * every job of a partition is a shadow on all partitions below   — `cast`.

  `_update_all_active_rows` establishes it FROM NOTHING (`updateAllActiveRows_ok`): it goes from high to low, and what
  it does to a partition changes no shadows on those above or beside it.  A timeslice does not.  While it turns a
  higher partition over, one shadow may leave and ANOTHER come: the sum is the same, the partition is passed over, and
  the newcomer is not noticed (`shadow_unnoticed`).  `gang_exclusive` is for runs in which this does not happen.
-/
import Slurmpp.Gang.Rows

namespace Slurmpp.Gang

open List

namespace Gs

variable {ι : Type*} {g g' : Gs ι} {p q : ι} {j k : Nat} {P : Phys} {S : List Nat}

/-! ## Well-formed states -/

/-- Every `gs_job` is in the list of one partition, once, and pointers are to allocated records. -/
structure Wf (g : Gs ι) : Prop where
  parts : g.partList.Nodup
  nodup : ∀ p ∈ g.partList, (g.part p).jobList.Nodup
  apart : ∀ p ∈ g.partList, ∀ q ∈ g.partList, p ≠ q → ∀ j ∈ (g.part p).jobList, j ∉ (g.part q).jobList
  jobs : ∀ p ∈ g.partList, ∀ j ∈ (g.part p).jobList, j < g.next
  shadows : ∀ p ∈ g.partList, ∀ j ∈ (g.part p).shadow, j < g.next

theorem Reworks.wf (h : Reworks p g g') (hp : p ∈ g.partList) (hw : Wf g) : Wf g' := by
  refine ⟨h.partList ▸ hw.parts, fun q hq => ?_, fun q hq r hr hne j hj hj' => ?_,
    fun q hq j hj => ?_, fun q hq j hj => ?_⟩ <;> rw [h.partList] at hq
  · exact (h.jobs q).nodup_iff.2 (hw.nodup q hq)
  · rw [h.partList] at hr
    exact hw.apart q hq r hr hne j (h.mem_jobList.1 hj) (h.mem_jobList.1 hj')
  · rw [h.next]
    exact hw.jobs q hq j (h.mem_jobList.1 hj)
  · rw [h.next]
    by_cases hjp : j ∈ (g.part p).jobList
    · exact hw.jobs p hp j hjp
    · exact hw.shadows q hq j ((h.shadow q j hjp).1 hj)

theorem Reworks.agrees (h : Reworks p g g') (hw : Wf g) (hp : p ∈ g.partList)
    (hq : q ∈ g.partList) (hne : q ≠ p) (ha : AgreeOn (g.part q).jobList g) : AgreeOn (g'.part q).jobList g' := by
  intro j hj
  have hj := h.mem_jobList.1 hj
  rw [h.others j (hw.apart q hq p hp hne j hj)]
  exact ha j hj

/-! ## The invariant -/

/-- **Who runs on `p`** runs apart, and apart from the shadows `S`, and is a shadow below. -/
structure PartOK (P : Phys) (g : Gs ι) (p : ι) (S : List Nat) : Prop where
  apart : Apart P g S (Running g p)
  cast : Cast g p (Running g p)

theorem PartOK.mono {S' : List Nat} (h : PartOK P g p S) (hS : S' ⊆ S) : PartOK P g p S' :=
  ⟨h.apart.mono hS fun _ hj => hj, h.cast⟩

theorem PartOK.frame (h : PartOK P g q S) (hr : Reworks p g g') (hw : Wf g) (hp : p ∈ g.partList)
    (hq : q ∈ g.partList) (hne : q ≠ p) : PartOK P g' q S := by
  have hrun : ∀ j, Running g' q j → Running g q j ∧ j ∉ (g.part p).jobList := by
    rintro j ⟨hj, hsig⟩
    have hj := hr.mem_jobList.1 hj
    have hjp := hw.apart q hq p hp hne j hj
    rw [hr.others j hjp] at hsig
    exact ⟨⟨hj, hsig⟩, hjp⟩
  refine ⟨(h.apart.congr hr.resrcs).mono (List.Subset.refl _) fun j hj => (hrun j hj).1, fun j hj r hrl hlt => ?_⟩
  obtain ⟨hj, hjp⟩ := hrun j hj
  rw [hr.priority, hr.priority] at hlt
  rw [hr.shadow r j hjp]
  exact h.cast j hj r (hr.partList ▸ hrl) hlt

/-- Every partition is well-formed and at rest. -/
structure Tidy (g : Gs ι) : Prop where
  wf : Wf g
  agree : ∀ p ∈ g.partList, AgreeOn (g.part p).jobList g

/-- **The invariant of the scheduler.** -/
structure Inv (P : Phys) (g : Gs ι) : Prop where
  tidy : Tidy g
  ok : ∀ p ∈ g.partList, PartOK P g p (g.part p).shadow

theorem Reworks.tidy (h : Reworks p g g') (hp : p ∈ g.partList) (ht : Tidy g)
    (ha : AgreeOn (g'.part p).jobList g') : Tidy g' := by
  refine ⟨h.wf hp ht.wf, fun q hq => ?_⟩
  by_cases hne : q = p
  · exact hne ▸ ha
  · have hq := h.partList ▸ hq
    exact h.agrees ht.wf hp hq hne (ht.agree q hq)

theorem Inv.rework (hI : Inv P g) (h : Reworks p g g') (hp : p ∈ g.partList)
    (ha : AgreeOn (g'.part p).jobList g') (hok : PartOK P g' p (g'.part p).shadow)
    (hshadow : ∀ q, (g'.part q).shadow ⊆ (g.part q).shadow) : Inv P g' := by
  refine ⟨h.tidy hp hI.tidy ha, fun q hq => ?_⟩
  have hq := h.partList ▸ hq
  by_cases hne : q = p
  · exact hne ▸ hok
  · exact ((hI.ok q hq).frame h hI.tidy.wf hp hq hne).mono (hshadow q)

/-! ## All rows -/

section Order

variable {priority : ι → Nat} {l : List ι}

theorem insertPart_perm : (insertPart priority p l).Perm (p :: l) := by
  rw [insertPart]
  refine perm_middle.trans (List.Perm.cons p ?_)
  rw [takeWhile_append_dropWhile]

theorem insertPart_sorted (h : l.Pairwise fun a b => priority b ≤ priority a) :
    (insertPart priority p l).Pairwise fun a b => priority b ≤ priority a := by
  induction l with
  | nil => simp [insertPart]
  | cons q l ih =>
    obtain ⟨hq, hl⟩ := pairwise_cons.1 h
    by_cases hpq : priority p ≤ priority q
    · have hcons : insertPart priority p (q :: l) = q :: insertPart priority p l := by
        simp [insertPart, hpq]
      rw [hcons, pairwise_cons]
      refine ⟨fun r hr => ?_, ih hl⟩
      rcases mem_cons.1 (insertPart_perm.mem_iff.1 hr) with rfl | hr
      · exact hpq
      · exact hq r hr
    · have hcons : insertPart priority p (q :: l) = p :: q :: l := by
        simp [insertPart, hpq]
      rw [hcons, pairwise_cons]
      refine ⟨forall_mem_cons.2 ⟨by omega, fun r hr => ?_⟩, h⟩
      have := hq r hr
      omega

theorem sortPartitions_perm : g.sortPartitions.partList.Perm g.partList := by
  have h := foldl_prefix (f := fun l p => insertPart (fun q => (g.part q).priority) p l)
    (I := fun seen l => l.Perm seen) (l := g.partList) (.refl _)
    fun seen p _ l _ hl => insertPart_perm.trans
      ((hl.cons p).trans (perm_append_singleton p seen).symm)
  exact h

theorem sortPartitions_sorted (g : Gs ι) :
    g.sortPartitions.partList.Pairwise fun a b => (g.part b).priority ≤ (g.part a).priority :=
  foldl_keeps (f := fun l p => insertPart (fun q => (g.part q).priority) p l)
    (I := fun l => l.Pairwise fun a b => (g.part b).priority ≤ (g.part a).priority)
    (fun _ _ _ h => insertPart_sorted h) List.Pairwise.nil

theorem Tidy.sortPartitions (h : Tidy g) : Tidy g.sortPartitions := by
  have hmem : ∀ p, p ∈ g.sortPartitions.partList ↔ p ∈ g.partList := fun p =>
    sortPartitions_perm.mem_iff
  exact ⟨⟨sortPartitions_perm.nodup_iff.2 h.wf.parts,
    fun p hp => h.wf.nodup p ((hmem p).1 hp),
    fun p hp q hq => h.wf.apart p ((hmem p).1 hp) q ((hmem q).1 hq),
    fun p hp => h.wf.jobs p ((hmem p).1 hp), fun p hp => h.wf.shadows p ((hmem p).1 hp)⟩,
    fun p hp => h.agree p ((hmem p).1 hp)⟩

theorem Inv.sortPartitions (h : Inv P g) : Inv P g.sortPartitions := by
  have hmem : ∀ p, p ∈ g.sortPartitions.partList ↔ p ∈ g.partList := fun p =>
    sortPartitions_perm.mem_iff
  refine ⟨h.tidy.sortPartitions, fun p hp => ?_⟩
  have hok := h.ok p ((hmem p).1 hp)
  exact ⟨hok.apart.congr fun _ => rfl, fun j hj q hq => hok.cast j hj q ((hmem q).1 hq)⟩

end Order

/-- In the middle of a pass from high to low: the partitions `seen` are done. -/
structure Pass (P : Phys) (g₀ : Gs ι) (seen : List ι) (g : Gs ι) : Prop where
  tidy : Tidy g
  partList : g.partList = g₀.partList
  priority : ∀ q, (g.part q).priority = (g₀.part q).priority
  seen : ∀ q ∈ seen, PartOK P g q (g.part q).shadow

/-- **The work on one partition does not undo that on those above.** -/
theorem Pass.step {g₀ : Gs ι} {seen post : List ι} (h : Pass P g₀ seen g) (hl : g₀.partList = seen ++ p :: post)
    (hsorted : g₀.partList.Pairwise fun a b => (g₀.part b).priority ≤ (g₀.part a).priority)
    (hr : Reworks p g g') (ha : AgreeOn (g'.part p).jobList g')
    (hok : PartOK P g' p (g'.part p).shadow) : Pass P g₀ (seen ++ [p]) g' := by
  have hp : p ∈ g.partList := by
    rw [h.partList, hl]
    exact mem_append_right _ mem_cons_self
  refine ⟨hr.tidy hp h.tidy ha, hr.partList.trans h.partList,
    fun q => (hr.priority q).trans (h.priority q), fun q hq => ?_⟩
  rcases mem_append.1 hq with hq | hq
  · have hmem : q ∈ g.partList := by
      rw [h.partList, hl]
      exact mem_append_left _ hq
    have hne : q ≠ p := by
      have := h.tidy.wf.parts
      rw [h.partList, hl] at this
      exact (nodup_append.1 this).2.2 q hq p mem_cons_self
    have hprio : (g.part p).priority ≤ (g.part q).priority := by
      rw [h.priority, h.priority]
      rw [hl, pairwise_append] at hsorted
      exact hsorted.2.2 q hq p mem_cons_self
    exact ((h.seen q hq).frame hr h.tidy.wf hp hmem hne).mono (hr.above q hprio)
  · obtain rfl := mem_singleton.1 hq
    exact hok

/-- A job is taken out: lists and shadows shrink, but the jobs that stay keep their shadows. -/
structure Shrinks (g g' : Gs ι) : Prop where
  partList : g'.partList = g.partList
  next : g'.next = g.next
  job : g'.job = g.job
  priority : ∀ q, (g'.part q).priority = (g.part q).priority
  jobs : ∀ q, (g'.part q).jobList.Sublist (g.part q).jobList
  shadow : ∀ q, (g'.part q).shadow ⊆ (g.part q).shadow
  kept : ∀ q ∈ g.partList, ∀ j ∈ (g'.part q).jobList, ∀ r, j ∈ (g.part r).shadow → j ∈ (g'.part r).shadow

theorem Shrinks.refl (g : Gs ι) : Shrinks g g :=
  ⟨rfl, rfl, rfl, fun _ => rfl, fun _ => .refl _, fun _ => List.Subset.refl _, fun _ _ _ _ _ h => h⟩

theorem Shrinks.inv (h : Shrinks g g') (hI : Inv P g) : Inv P g' := by
  have hw := hI.tidy.wf
  refine ⟨⟨⟨h.partList ▸ hw.parts, fun q hq => ?_, fun q hq r hr hne j hj hj' => ?_,
    fun q hq j hj => ?_, fun q hq j hj => ?_⟩, fun q hq j hj => ?_⟩, fun q hq => ⟨?_, ?_⟩⟩ <;>
    rw [h.partList] at hq
  · exact (hw.nodup q hq).sublist (h.jobs q)
  · rw [h.partList] at hr
    exact hw.apart q hq r hr hne j ((h.jobs q).subset hj) ((h.jobs r).subset hj')
  · rw [h.next]
    exact hw.jobs q hq j ((h.jobs q).subset hj)
  · rw [h.next]
    exact hw.shadows q hq j (h.shadow q hj)
  · rw [h.job]
    exact hI.tidy.agree q hq j ((h.jobs q).subset hj)
  · refine ((hI.ok q hq).apart.congr fun j => by rw [resrcs, resrcs, h.job]).mono (h.shadow q) ?_
    rintro j ⟨hj, hsig⟩
    exact ⟨(h.jobs q).subset hj, by rwa [h.job] at hsig⟩
  · rintro j ⟨hj, hsig⟩ r hr hlt
    rw [h.job] at hsig
    rw [h.priority, h.priority] at hlt
    exact h.kept q hq j hj r ((hI.ok q hq).cast j ⟨(h.jobs q).subset hj, hsig⟩ r
      (h.partList ▸ hr) hlt)

structure Begin (g : Gs ι) : Prop where
  parts : g.partList.Nodup
  jobs : ∀ p ∈ g.partList, (g.part p).jobList = []
  shadows : ∀ p ∈ g.partList, (g.part p).shadow = []

theorem Begin.inv (h : Begin g) : Inv P g := by
  have hnone : ∀ p ∈ g.partList, ∀ j, j ∉ (g.part p).jobList := fun p hp j hj => by
    rw [h.jobs p hp] at hj
    cases hj
  have hw : Wf g := by
    refine ⟨h.parts, fun p hp => ?_, fun p hp _ _ _ j hj => absurd hj (hnone p hp j),
      fun p hp j hj => absurd hj (hnone p hp j), fun p hp j hj => ?_⟩
    · rw [h.jobs p hp]
      exact nodup_nil
    · rw [h.shadows p hp] at hj
      cases hj
  have hrun : ∀ p ∈ g.partList, ∀ j, ¬Running g p j := fun p hp j hj => hnone p hp j hj.1
  exact ⟨⟨hw, fun p hp j hj => absurd hj (hnone p hp j)⟩, fun p hp =>
    ⟨⟨fun j _ hj => absurd hj (hrun p hp j), fun j hj => absurd hj (hrun p hp j)⟩,
      fun j hj => absurd hj (hrun p hp j)⟩⟩

theorem Inv.apart_below (hI : Inv P g) (hp : p ∈ g.partList) (hq : q ∈ g.partList)
    (hlt : (g.part q).priority < (g.part p).priority) (hj : Running g p j) (hk : Running g q k) :
    Disjoint ((g.resrcs j).cores P) ((g.resrcs k).cores P) :=
  ((hI.ok q hq).apart.shade k hk j ((hI.ok p hp).cast j hj q hq hlt)).symm

variable [DecidableEq ι]

theorem updateActiveRow_ok (hP : P.grType = .core) (addNewJobs : Bool) (ht : Tidy g) (hp : p ∈ g.partList) :
    AgreeOn ((updateActiveRow P addNewJobs g p).part p).jobList (updateActiveRow P addNewJobs g p) ∧
      PartOK P (updateActiveRow P addNewJobs g p) p ((updateActiveRow P addNewJobs g p).part p).shadow := by
  have hr : Reworks p g (updateActiveRow P addNewJobs g p) := Reworks.updateActiveRow addNewJobs
  obtain ⟨hI, hC, hA⟩ := updateActiveRow_inRow hP addNewJobs (ht.wf.nodup p hp)
    (ht.agree p hp)
  have hrun : ∀ j, Running (updateActiveRow P addNewJobs g p) p j →
      InRowOf (g.part p).jobList (updateActiveRow P addNewJobs g p) j := by
    rintro j ⟨hj, hsig⟩
    have hj := hr.mem_jobList.1 hj
    exact ⟨hj, (hA j hj).1 hsig⟩
  exact ⟨fun j hj => hA j (hr.mem_jobList.1 hj), hI.toApart.mono (List.Subset.refl _) hrun,
    fun j hj => hC j (hrun j hj)⟩

/-- **`_update_all_active_rows` establishes the invariant**, whatever the rows and shadows were. -/
theorem updateAllActiveRows_ok (hP : P.grType = .core) (ht : Tidy g) : Inv P (g.updateAllActiveRows P) := by
  have hpass := foldl_prefix (f := updateActiveRow P true) (I := Pass P g.sortPartitions)
    (l := g.sortPartitions.partList)
    ⟨ht.sortPartitions, rfl, fun _ => rfl, by simp⟩ ?_
  · exact ⟨hpass.tidy, fun p hp => hpass.seen p (hpass.partList ▸ hp)⟩
  · intro seen p post g' hl h
    have hp : p ∈ g'.partList := by
      rw [h.partList, hl]
      exact mem_append_right _ mem_cons_self
    obtain ⟨ha, hok⟩ := updateActiveRow_ok hP true h.tidy hp
    exact h.step hl (sortPartitions_sorted g) (Reworks.updateActiveRow true) ha hok

/-! ## Jobs come and go -/

theorem removeJobFromPart_shrinks (jobId : Nat) (fini : Bool) (hw : Wf g) (hp : p ∈ g.partList) :
    Shrinks g (g.removeJobFromPart jobId p fini) := by
  rw [removeJobFromPart]
  split_ifs
  · exact .refl g
  · cases hfind : g.findJob p jobId with
    | none => exact .refl g
    | some j =>
      have hj : j ∈ (g.part p).jobList := mem_of_find?_eq_some hfind
      -- the state without the job, before it may be resumed
      have hout : Shrinks g ((g.clearShadow j).setPart p
          { (g.clearShadow j).part p with
            jobList := ((g.clearShadow j).part p).jobList.erase j }) := by
        have hlist : ∀ q, ((g.clearShadow j).part q).jobList = (g.part q).jobList := fun q => by
          rw [part_clearShadow]
        refine ⟨rfl, rfl, rfl, fun q => ?_, fun q => ?_, fun q => ?_, fun q hq k hk r hkr => ?_⟩
        · exact (field_setPart (·.priority) (by rfl)).trans (by rw [part_clearShadow])
        · by_cases hq : q = p
          · subst hq
            rw [part_setPart_self]
            rw [hlist]
            exact erase_sublist
          · rw [part_setPart_of_ne _ hq, hlist]
        · rw [field_setPart (·.shadow)]
          · exact shadow_clearShadow_subset
          · rfl
        · -- the job taken out is in no list any more
          have hne : k ≠ j := by
            rintro rfl
            by_cases hqp : q = p
            · subst hqp
              rw [part_setPart_self] at hk
              rw [hlist] at hk
              exact (hw.nodup q hq).not_mem_erase hk
            · rw [part_setPart_of_ne _ hqp, hlist] at hk
              exact hw.apart p hp q hq (Ne.symm hqp) k hj hk
          rw [field_setPart (·.shadow)]
          · exact (mem_shadow_clearShadow hne).2 hkr
          · rfl
      dsimp only
      split_ifs
      · exact ⟨hout.partList, hout.next, hout.job, hout.priority, hout.jobs, hout.shadow, hout.kept⟩
      · exact hout

theorem dropDuplicate_inv (hP : P.grType = .core) (hI : Inv P g) (hp : p ∈ g.partList)
    (jobPtr : JobRecord) : Inv P (g.dropDuplicate P p jobPtr) := by
  rw [dropDuplicate]
  split_ifs
  · have hs := removeJobFromPart_shrinks jobPtr.jobId false hI.tidy.wf hp
    have hI' := hs.inv hI
    have hp' : p ∈ (g.removeJobFromPart jobPtr.jobId p false).partList := hs.partList ▸ hp
    obtain ⟨ha, hok⟩ := updateActiveRow_ok hP false hI'.tidy hp'
    exact hI'.rework (Reworks.updateActiveRow false) hp' ha hok fun q =>
      updateActiveRow_shadow (hI'.tidy.agree p hp') (hI'.ok p hp').cast
  · exact hI

theorem partList_dropDuplicate (hw : Wf g) (hp : p ∈ g.partList) (jobPtr : JobRecord) :
    (g.dropDuplicate P p jobPtr).partList = g.partList := by
  rw [dropDuplicate]
  split_ifs
  · rw [(Reworks.updateActiveRow false).partList]
    exact (removeJobFromPart_shrinks jobPtr.jobId false hw hp).partList
  · rfl

section Append

variable {jobPtr : JobRecord}

theorem jobList_appendJob : ((g.appendJob p jobPtr).part q).jobList =
    if q = p then (g.part p).jobList ++ [g.next] else (g.part q).jobList := by
  rw [appendJob]
  split_ifs with hq
  · subst hq
    rw [part_setPart_self]
  · rw [part_setPart_of_ne _ hq]

theorem mem_jobList_appendJob {k : Nat} : k ∈ ((g.appendJob p jobPtr).part q).jobList ↔
    k ∈ (g.part q).jobList ∨ q = p ∧ k = g.next := by
  rw [jobList_appendJob]
  split_ifs with hq
  · simp [hq]
  · simp [hq]

theorem shadow_appendJob : ((g.appendJob p jobPtr).part q).shadow = (g.part q).shadow :=
  field_setPart (·.shadow) (by rfl)

theorem priority_appendJob : ((g.appendJob p jobPtr).part q).priority = (g.part q).priority :=
  field_setPart (·.priority) (by rfl)

theorem job_appendJob : (g.appendJob p jobPtr).job k =
    if k = g.next then ⟨jobPtr, .resume, .noActive⟩ else g.job k := by
  rw [appendJob]
  exact Function.update_apply _ _ _ _

theorem appendJob_wf (hw : Wf g) (hp : p ∈ g.partList) : Wf (g.appendJob p jobPtr) := by
  have hnew : ∀ q ∈ g.partList, g.next ∉ (g.part q).jobList := fun q hq h =>
    absurd (hw.jobs q hq _ h) (Nat.lt_irrefl _)
  refine ⟨hw.parts, fun q hq => ?_, fun q hq r hr hne j hj hj' => ?_, fun q hq j hj => ?_, fun q hq j hj => ?_⟩
  · rw [jobList_appendJob]
    split_ifs with h
    · exact (nodup_append_comm.1 (nodup_cons.2 ⟨hnew p hp, hw.nodup p hp⟩))
    · exact hw.nodup q hq
  · rcases mem_jobList_appendJob.1 hj with hjq | ⟨hqp, hjn⟩
    · rcases mem_jobList_appendJob.1 hj' with hjr | ⟨-, hjn⟩
      · exact hw.apart q hq r hr hne j hjq hjr
      · exact hnew q hq (hjn ▸ hjq)
    · rcases mem_jobList_appendJob.1 hj' with hjr | ⟨hrp, -⟩
      · exact hnew r hr (hjn ▸ hjr)
      · exact hne (hqp.trans hrp.symm)
  · show j < g.next + 1
    rcases mem_jobList_appendJob.1 hj with hj | ⟨-, rfl⟩
    · have := hw.jobs q hq j hj
      omega
    · omega
  · show j < g.next + 1
    rw [shadow_appendJob] at hj
    have := hw.shadows q hq j hj
    omega

theorem agree_of_appendJob (hI : Tidy g) (hp : p ∈ g.partList) {a : GsJob} (hr : Reworks p (g.appendJob p jobPtr) g')
    (hjob : ∀ k, g'.job k = if k = g.next then a else g.job k)
    (ha : a.sigState = .resume ↔ a.rowState ≠ .noActive) : Tidy g' := by
  refine ⟨hr.wf hp (appendJob_wf hI.wf hp), fun q hq j hj => ?_⟩
  rw [hr.partList] at hq
  rw [hjob]
  split_ifs with hnext
  · exact ha
  · rcases mem_jobList_appendJob.1 (hr.mem_jobList.1 hj) with hj | ⟨-, h⟩
    · exact hI.agree q hq j hj
    · exact absurd h hnext

theorem suspend_new_inv (jobPtr : JobRecord) (hI : Inv P g) (hp : p ∈ g.partList) :
    Inv P ((g.appendJob p jobPtr).suspendJob p g.next) := by
  have hmem : g.next ∈ ((g.appendJob p jobPtr).part p).jobList :=
    mem_jobList_appendJob.2 (.inr ⟨rfl, rfl⟩)
  have hjob : ∀ k, ((g.appendJob p jobPtr).suspendJob p g.next).job k =
      if k = g.next then ⟨jobPtr, .suspend, .noActive⟩ else g.job k := by
    intro k
    rw [job_suspendJob, job_appendJob, job_appendJob, if_pos rfl]
    split_ifs <;> rfl
  have hrun : ∀ q j, Running ((g.appendJob p jobPtr).suspendJob p g.next) q j → Running g q j := by
    rintro q j ⟨hj, hsig⟩
    rw [hjob] at hsig
    split_ifs at hsig with hnext
    have hj : j ∈ ((g.appendJob p jobPtr).part q).jobList := hj
    exact ⟨(mem_jobList_appendJob.1 hj).resolve_right fun h => hnext h.2, hsig⟩
  refine ⟨agree_of_appendJob hI.tidy hp (Reworks.suspendJob hmem) hjob (by simp), fun q hq => ?_⟩
  have hw := hI.tidy.wf
  have hres : ∀ k < g.next, ((g.appendJob p jobPtr).suspendJob p g.next).resrcs k = g.resrcs k := by
    intro k hk
    rw [resrcs, resrcs, hjob, if_neg (Nat.ne_of_lt hk)]
  have hok := hI.ok q hq
  refine ⟨⟨fun j k hj hk hne => ?_, fun j hj k hk => ?_⟩, fun j hj r hr hlt => ?_⟩
  · have hj := hrun q j hj
    have hk := hrun q k hk
    rw [hres j (hw.jobs q hq j hj.1), hres k (hw.jobs q hq k hk.1)]
    exact hok.apart.clash j k hj hk hne
  · have hj := hrun q j hj
    have hk : k ∈ (g.part q).shadow := by
      have hk : k ∈ ((g.appendJob p jobPtr).part q).shadow := hk
      rwa [shadow_appendJob] at hk
    rw [hres j (hw.jobs q hq j hj.1), hres k (hw.shadows q hq k hk)]
    exact hok.apart.shade j hj k hk
  · have hlt' : ((g.appendJob p jobPtr).part r).priority <
      ((g.appendJob p jobPtr).part q).priority := hlt
    rw [priority_appendJob, priority_appendJob] at hlt'
    show j ∈ ((g.appendJob p jobPtr).part r).shadow
    rw [shadow_appendJob]
    exact hok.cast j (hrun q j hj) r hr hlt'

variable (P) in
/-- What `_add_job_to_part` does once no duplicate is left. -/
def enter (p : ι) (jobPtr : JobRecord) (g : Gs ι) : Gs ι × Nat :=
  if (g.appendJob p jobPtr).fits P p g.next then
    ((((g.appendJob p jobPtr).putInRow P p g.next).setRow g.next .filler).castShadow g.next
      ((g.appendJob p jobPtr).part p).priority, g.next)
  else ((g.appendJob p jobPtr).suspendJob p g.next, g.next)

theorem enter_spec (hI : Inv P g) (hp : p ∈ g.partList) :
    Tidy (enter P p jobPtr g).1 ∧
      (((enter P p jobPtr g).1.job (enter P p jobPtr g).2).sigState = .resume ∨ Inv P (enter P p jobPtr g).1) := by
  have hmem : g.next ∈ ((g.appendJob p jobPtr).part p).jobList :=
    mem_jobList_appendJob.2 (.inr ⟨rfl, rfl⟩)
  rw [enter]
  split_ifs with hfit
  · have h1 : Reworks p (g.appendJob p jobPtr) ((g.appendJob p jobPtr).putInRow P p g.next) :=
      Reworks.putInRow
    have h2 := h1.trans (Reworks.setRow (h1.mem_jobList.2 hmem) .filler)
    have h3 := h2.trans (Reworks.castShadow (h2.mem_jobList.2 hmem))
    rw [h2.priority] at h3
    have hjob : ∀ k, ((((g.appendJob p jobPtr).putInRow P p g.next).setRow g.next
        .filler).castShadow g.next ((g.appendJob p jobPtr).part p).priority).job k =
        if k = g.next then ⟨jobPtr, .resume, .filler⟩ else g.job k := by
      intro k
      rw [job_castShadow, job_setRow, job_putInRow, job_appendJob, job_appendJob, if_pos rfl]
      split_ifs <;> rfl
    refine ⟨agree_of_appendJob hI.tidy hp h3 hjob (by simp), .inl ?_⟩
    rw [hjob, if_pos rfl]
  · have hI' := suspend_new_inv jobPtr hI hp
    exact ⟨hI'.tidy, .inr hI'⟩

end Append

section

variable (hP : P.grType = .core)
include hP

theorem gsJobStart_inv (hI : Inv P g) : Inv P (g.gsJobStart P jobPtr) := by
  rw [gsJobStart]
  cases hfind : g.findPart jobPtr.partition with
  | none => exact hI
  | some p =>
    have hp : p ∈ g.partList := mem_of_find?_eq_some hfind
    have hp' : p ∈ (g.dropDuplicate P p jobPtr).partList := by
      rw [partList_dropDuplicate hI.tidy.wf hp]
      exact hp
    obtain ⟨ht, hsig⟩ := enter_spec (dropDuplicate_inv hP hI hp jobPtr) hp'
    show Inv P (if ((enter P p jobPtr (g.dropDuplicate P p jobPtr)).1.job
      (enter P p jobPtr (g.dropDuplicate P p jobPtr)).2).sigState = .resume then _ else _)
    split_ifs with h
    · exact updateAllActiveRows_ok hP ht
    · exact hsig.resolve_left h

theorem gsJobFini_inv (hI : Inv P g) : Inv P (g.gsJobFini P jobPtr) := by
  rw [gsJobFini]
  cases hfind : g.findPart jobPtr.partition with
  | none => exact hI
  | some p =>
    have hp : p ∈ g.partList := mem_of_find?_eq_some hfind
    have hs := removeJobFromPart_shrinks jobPtr.jobId true hI.tidy.wf hp
    exact updateAllActiveRows_ok hP (hs.inv hI).tidy

/-! ## Timeslices -/

variable (P) in
/-- No partition is passed over that has got a new shadow since `g₀`, when the pass began. -/
def Attends (g₀ : Gs ι) : List ι → Gs ι → Prop
  | [], _ => True
  | p :: rest, g =>
    ((g.part p).jobsActive < (g.part p).jobList.length + (g.part p).shadow.length ∨
      ∀ j ∈ (g.part p).shadow, j ∈ (g₀.part p).shadow) ∧ Attends g₀ rest (g.slice P p)

instance decidableAttends (g₀ : Gs ι) : ∀ l g, Decidable (Attends P g₀ l g)
  | [], _ => isTrue trivial
  | p :: rest, g =>
    have := decidableAttends g₀ rest (g.slice P p)
    inferInstanceAs (Decidable (_ ∧ _))

theorem cycleJobList_ok (hnodup : (g.part p).jobList.Nodup) (hc : Cast g p (Running g p)) :
    AgreeOn ((g.cycleJobList P p).part p).jobList (g.cycleJobList P p) ∧
      PartOK P (g.cycleJobList P p) p ((g.cycleJobList P p).part p).shadow := by
  have hr : Reworks p g (g.cycleJobList P p) := Reworks.cycleJobList hnodup
  refine ⟨fun j hj => ?_, cycleJobList_apart hP hnodup, cycleJobList_cast hnodup hc⟩
  have hj := hr.mem_jobList.1 hj
  rw [sigState_cycleJobList hnodup hj]
  rcases rowState_of_mem (P := P) hnodup hj with h | h <;> simp [h]

/-- **The rest of a pass.**  The partitions not yet seen are apart from the shadows that were on them
    when the pass began. -/
theorem slices_inv {g₀ : Gs ι}
    (hsorted : g₀.partList.Pairwise fun a b => (g₀.part b).priority ≤ (g₀.part a).priority)
    {seen rest : List ι} (hl : g₀.partList = seen ++ rest) (h : Pass P g₀ seen g)
    (hrest : ∀ q ∈ rest, PartOK P g q (g₀.part q).shadow) (ha : Attends P g₀ rest g) :
    Inv P (rest.foldl (slice P) g) := by
  induction rest generalizing seen g with
  | nil =>
    rw [append_nil] at hl
    refine ⟨h.tidy, fun q hq => h.seen q ?_⟩
    have hq : q ∈ g.partList := hq
    rwa [h.partList, hl] at hq
  | cons p rest ih =>
    obtain ⟨hatt, ha⟩ := ha
    have hp : p ∈ g.partList := by
      rw [h.partList, hl]
      exact mem_append_right _ mem_cons_self
    have hnodup := h.tidy.wf.nodup p hp
    -- what is done to `p`
    obtain ⟨hr, hagree, hok⟩ : Reworks p g (g.slice P p) ∧
        AgreeOn ((g.slice P p).part p).jobList (g.slice P p) ∧
        PartOK P (g.slice P p) p ((g.slice P p).part p).shadow := by
      rw [slice]
      split_ifs with hturn
      · exact ⟨Reworks.cycleJobList hnodup, cycleJobList_ok hP hnodup (hrest p mem_cons_self).cast⟩
      · exact ⟨.refl p g, h.tidy.agree p hp, (hrest p mem_cons_self).mono (hatt.resolve_left hturn)⟩
    have hl' : g₀.partList = (seen ++ [p]) ++ rest := by rw [hl, append_assoc]; rfl
    refine ih hl' (h.step hl hsorted hr hagree hok) (fun q hq => ?_) ha
    have hq' : q ∈ g.partList := by
      rw [h.partList, hl']
      exact mem_append_right _ hq
    have hne : q ≠ p := by
      have hparts := h.tidy.wf.parts
      rw [h.partList, hl'] at hparts
      exact fun he => (nodup_append.1 hparts).2.2 p (by simp) q hq he.symm
    exact (hrest q (mem_cons_of_mem _ hq)).frame hr h.tidy.wf hp hq' hne

theorem timeslice_inv (hI : Inv P g)
    (ha : Attends P g.sortPartitions g.sortPartitions.partList g.sortPartitions) : Inv P (g.timeslice P) := by
  have hI' := hI.sortPartitions
  have hpass : Pass P g.sortPartitions [] g.sortPartitions := ⟨hI'.tidy, rfl, fun _ => rfl, by simp⟩
  exact slices_inv hP (sortPartitions_sorted g) rfl hpass (fun q hq => hI'.ok q hq) ha

/-! ## Runs -/

variable (P) in
/-- A timeslice must not pass over a partition that it has put a shadow on. -/
def Attentive (g : Gs ι) : Event → Prop
  | .timeslice => Attends P g.sortPartitions g.sortPartitions.partList g.sortPartitions
  | _ => True

instance (g : Gs ι) : DecidablePred (Attentive P g)
  | .timeslice => decidableAttends _ _ _
  | .jobStart _ => isTrue trivial
  | .jobFini _ => isTrue trivial

theorem reach_inv {g₀ : Gs ι} (h0 : Begin g₀)
    (h : (scheduler P).Reach (Attentive P) g₀ g) : Inv P g := by
  refine h.invariant h0.inv fun s a s' hs ha hstep => ?_
  cases a with
  | jobStart jobPtr =>
    cases hstep
    exact gsJobStart_inv hP hs
  | jobFini jobPtr =>
    cases hstep
    exact gsJobFini_inv hP hs
  | timeslice =>
    cases hstep
    exact timeslice_inv hP hs ha

end

/-- **No two jobs run on one core**, in one partition or in partitions of different priority, in
    every run in which no timeslice passes over a partition that it has put a shadow on. -/
theorem gang_exclusive (P : Phys) (hP : P.grType = .core) (g₀ g : Gs ι) (h₀ : Begin g₀)
    (hrun : (scheduler P).Reach (Attentive P) g₀ g) (p q : ι) (hp : p ∈ g.partList)
    (hq : q ∈ g.partList) (hpq : p = q ∨ (g.part p).priority ≠ (g.part q).priority) (j k : Nat)
    (hj : j ∈ (g.part p).jobList) (hk : k ∈ (g.part q).jobList) (hne : j ≠ k)
    (hjr : (g.job j).sigState = .resume) (hkr : (g.job k).sigState = .resume) :
    ¬(g.job j).jobPtr.jobResrcs.SharesCore P (g.job k).jobPtr.jobResrcs := by
  have hI := reach_inv hP h₀ hrun
  refine JobResources.not_sharesCore ?_
  rcases hpq with rfl | hprio
  · exact (hI.ok p hp).apart.clash j k ⟨hj, hjr⟩ ⟨hk, hkr⟩ hne
  · rcases Nat.lt_or_gt_of_ne hprio with hlt | hlt
    · exact (hI.apart_below hq hp hlt ⟨hk, hkr⟩ ⟨hj, hjr⟩).symm
    · exact hI.apart_below hp hq hlt ⟨hj, hjr⟩ ⟨hk, hkr⟩

/-! ## A shadow that is not noticed -/

def twoCores : Phys := ⟨.core, [2], [1]⟩

def contest : Gs (Fin 2) where
  partList := [0, 1]
  part p := if p = 0 then ⟨"high".toList, 2, [], [], 0, none, none⟩
    else ⟨"low".toList, 1, [], [], 0, none, none⟩
  job _ := ⟨⟨0, [], ⟨∅, ∅, []⟩, .suspend⟩, .suspend, .noActive⟩
  next := 0
  signals := []

/-- Two jobs of the high partition, on the first core and on both, and one of the low partition, on
    the second core. -/
def contestStart : List Event :=
  [.jobStart ⟨1, "high".toList, ⟨{0}, {0}, [1]⟩, .suspend⟩,
    .jobStart ⟨2, "low".toList, ⟨{0}, {1}, [1]⟩, .suspend⟩,
    .jobStart ⟨3, "high".toList, ⟨{0}, {0, 1}, [2]⟩, .suspend⟩]

theorem contest_begin : Begin contest := ⟨by decide, by decide, by decide⟩

theorem gang_exclusive_contest : ∃ g, (scheduler twoCores).Reach (Attentive twoCores) contest g ∧
    (g.job 0).sigState = .resume ∧ (g.job 1).sigState = .resume ∧
    ¬(g.job 0).jobPtr.jobResrcs.SharesCore twoCores (g.job 1).jobPtr.jobResrcs := by
  have hend : ∀ g, (scheduler twoCores).Reach (Attentive twoCores) contest g →
      (0 ∈ g.partList ∧ 1 ∈ g.partList ∧ (g.part 0).priority ≠ (g.part 1).priority ∧
        0 ∈ (g.part 0).jobList ∧ 1 ∈ (g.part 1).jobList) →
      (g.job 0).sigState = .resume → (g.job 1).sigState = .resume →
      ¬(g.job 0).jobPtr.jobResrcs.SharesCore twoCores (g.job 1).jobPtr.jobResrcs := by
    rintro g hg ⟨h0, h1, hprio, hj0, hj1⟩ hr0 hr1
    exact gang_exclusive twoCores rfl contest g contest_begin hg 0 1 h0 h1 (.inr hprio) 0 1 hj0 hj1
      (by decide) hr0 hr1
  have hrun : (scheduler twoCores).Reach (Attentive twoCores) contest _ :=
    .of_run (contestStart ++ [.timeslice]) .start (by decide) rfl
  exact ⟨_, hrun, by decide, by decide, hend _ hrun (by decide) (by decide) (by decide)⟩

/-- **Two jobs on one core.**  In the second timeslice the job on both cores takes the place of the
    one on the first.  Its shadow on the low partition takes the place of the other's, the counts are
    as before, and the low partition's job runs on. -/
theorem shadow_unnoticed : Begin contest ∧
    ∃ g, (scheduler twoCores).run contest (contestStart ++ [.timeslice, .timeslice]) = some g ∧
      2 ∈ (g.part 0).jobList ∧ 1 ∈ (g.part 1).jobList ∧
      (g.part 0).priority ≠ (g.part 1).priority ∧
      (g.job 2).sigState = .resume ∧ (g.job 1).sigState = .resume ∧
      (g.job 2).jobPtr.jobResrcs.SharesCore twoCores (g.job 1).jobPtr.jobResrcs := by
  refine ⟨contest_begin, _, rfl, by decide, by decide, by decide, by decide, by decide, 0, 1, ?_, ?_⟩
  · exact ⟨by decide, by decide, by decide, by decide⟩
  · exact ⟨by decide, by decide, by decide, by decide⟩

end Gs

end Slurmpp.Gang
