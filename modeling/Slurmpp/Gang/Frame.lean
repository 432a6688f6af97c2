/-
  What the work on one partition leaves alone.

  Everything the gang scheduler does, it does partition by partition: `_update_active_row` and
  `_cycle_job_list` rebuild the row of ONE partition `p`, signal jobs of `p`, and cast or clear
  shadows of jobs of `p`.  `Reworks p g g'` is all that the rest of the scheduler can see of this:

  * names, priorities and sets of jobs stay; allocations stay;
  * other partitions' jobs stay as they are, and so do their shadows;
  * shadows of `p`'s jobs fall only on partitions BELOW `p`; on the others they can only vanish.

  It is shown once for each primitive step, and composes.
-/
import Slurmpp.Lib.Fold
import Slurmpp.Gang.Part

namespace Slurmpp.Gang

namespace Gs

variable {ι : Type*} {g g' g'' : Gs ι} {p q : ι} {j k : Nat} {P : Phys}

/-! ## Fields -/

@[simp] theorem job_setJob (a : GsJob) : (g.setJob j a).job = Function.update g.job j a := rfl
@[simp] theorem job_signal (s : Signal) : (g.signal s).job = g.job := rfl

@[simp] theorem part_setRow (row : RowState) : (g.setRow j row).part = g.part := rfl

theorem job_setRow (row : RowState) :
    (g.setRow j row).job k = if k = j then { g.job j with rowState := row } else g.job k := by
  rw [setRow, job_setJob, Function.update_apply]

theorem job_setSig (sig : SigState) :
    (g.setSig j sig).job k = if k = j then { g.job j with sigState := sig } else g.job k := by
  rw [setSig, job_setJob, Function.update_apply]

theorem job_suspendJob :
    (g.suspendJob p j).job k = if k = j then { g.job j with sigState := .suspend } else g.job k := by
  rw [suspendJob, job_setSig, job_signal]

theorem job_resumeJob : (g.resumeJob j).job k = if k = j then { g.job j with sigState := .resume } else g.job k := by
  rw [resumeJob, job_setSig, job_signal]

section Parts

variable [DecidableEq ι]

@[simp] theorem job_setPart (r : GsPart) : (g.setPart p r).job = g.job := rfl
@[simp] theorem part_setPart_self (r : GsPart) : (g.setPart p r).part p = r := by simp [setPart]

theorem part_setPart_of_ne (r : GsPart) (h : q ≠ p) : (g.setPart p r).part q = g.part q := by
  simp [setPart, h]

theorem field_setPart {α : Type*} (f : GsPart → α) {r : GsPart} (h : f r = f (g.part p)) :
    f ((g.setPart p r).part q) = f (g.part q) := by
  by_cases hq : q = p
  · subst hq
    rw [part_setPart_self, h]
  · rw [part_setPart_of_ne _ hq]

@[simp] theorem job_castShadow (n : Nat) : (g.castShadow j n).job = g.job := rfl
@[simp] theorem job_clearShadow : (g.clearShadow j).job = g.job := rfl

@[simp] theorem job_putInRow : (g.putInRow P p j).job = g.job := rfl
@[simp] theorem partList_putInRow : (g.putInRow P p j).partList = g.partList := rfl

theorem part_castShadow (n : Nat) : (g.castShadow j n).part q = { g.part q with shadow :=
      if q ∈ g.partList ∧ (g.part q).priority < n ∧ j ∉ (g.part q).shadow then
        (g.part q).shadow ++ [j] else (g.part q).shadow } := by
  simp only [castShadow]
  split_ifs <;> rfl

theorem part_clearShadow :
    (g.clearShadow j).part q = { g.part q with shadow :=
      if q ∈ g.partList then (g.part q).shadow.erase j else (g.part q).shadow } := by
  simp only [clearShadow]
  split_ifs <;> rfl

/-- **A cast shadow** is on every partition below, and nothing else is new. -/
theorem mem_shadow_castShadow {n : Nat} :
    k ∈ ((g.castShadow j n).part q).shadow ↔
      k ∈ (g.part q).shadow ∨ k = j ∧ q ∈ g.partList ∧ (g.part q).priority < n := by
  rw [part_castShadow]
  split_ifs with h
  · rw [List.mem_append, List.mem_singleton]
    exact or_congr_right ⟨fun hk => ⟨hk, h.1, h.2.1⟩, fun hk => hk.1⟩
  · refine ⟨.inl, ?_⟩
    rintro (hk | ⟨rfl, hq, hn⟩)
    · exact hk
    · exact by_contra fun hk => h ⟨hq, hn, hk⟩

theorem shadow_clearShadow_subset : ((g.clearShadow j).part q).shadow ⊆ (g.part q).shadow := by
  rw [part_clearShadow]
  split_ifs
  · exact List.erase_subset
  · exact fun _ h => h

theorem mem_shadow_clearShadow (h : k ≠ j) : k ∈ ((g.clearShadow j).part q).shadow ↔ k ∈ (g.part q).shadow := by
  rw [part_clearShadow]
  split_ifs
  · exact List.mem_erase_of_ne h
  · exact Iff.rfl

end Parts

/-! ## The relation -/

/-- **The work on partition `p`**, as others see it. -/
structure Reworks (p : ι) (g g' : Gs ι) : Prop where
  partList : g'.partList = g.partList
  next : g'.next = g.next
  partName : ∀ q, (g'.part q).partName = (g.part q).partName
  priority : ∀ q, (g'.part q).priority = (g.part q).priority
  jobs : ∀ q, (g'.part q).jobList.Perm (g.part q).jobList
  jobPtr : ∀ j, (g'.job j).jobPtr = (g.job j).jobPtr
  others : ∀ j, j ∉ (g.part p).jobList → g'.job j = g.job j
  shadow : ∀ q j, j ∉ (g.part p).jobList → (j ∈ (g'.part q).shadow ↔ j ∈ (g.part q).shadow)
  above : ∀ q, (g.part p).priority ≤ (g.part q).priority → (g'.part q).shadow ⊆ (g.part q).shadow

namespace Reworks

theorem refl (p : ι) (g : Gs ι) : Reworks p g g :=
  ⟨rfl, rfl, fun _ => rfl, fun _ => rfl, fun _ => .refl _, fun _ => rfl, fun _ _ => rfl,
    fun _ _ _ => .rfl, fun _ _ => List.Subset.refl _⟩

theorem trans (h : Reworks p g g') (h' : Reworks p g' g'') : Reworks p g g'' := by
  have hmem : ∀ j, j ∉ (g.part p).jobList → j ∉ (g'.part p).jobList :=
    fun j hj hj' => hj ((h.jobs p).mem_iff.1 hj')
  refine ⟨h'.partList.trans h.partList, h'.next.trans h.next,
    fun q => (h'.partName q).trans (h.partName q), fun q => (h'.priority q).trans (h.priority q),
    fun q => (h'.jobs q).trans (h.jobs q), fun j => (h'.jobPtr j).trans (h.jobPtr j),
    fun j hj => (h'.others j (hmem j hj)).trans (h.others j hj),
    fun q j hj => (h'.shadow q j (hmem j hj)).trans (h.shadow q j hj), fun q hq => ?_⟩
  refine List.Subset.trans (h'.above q ?_) (h.above q hq)
  rw [h.priority, h.priority]
  exact hq

theorem resrcs (h : Reworks p g g') (j : Nat) : g'.resrcs j = g.resrcs j := by
  rw [Gs.resrcs, Gs.resrcs, h.jobPtr]

theorem mem_jobList (h : Reworks p g g') : j ∈ (g'.part q).jobList ↔ j ∈ (g.part q).jobList :=
  (h.jobs q).mem_iff

theorem foldl {f : Gs ι → Nat → Gs ι} {l : List Nat} (hf : ∀ g, ∀ j ∈ l, j ∈ (g.part p).jobList → Reworks p g (f g j))
    (hl : ∀ j ∈ l, j ∈ (g.part p).jobList) : Reworks p g (l.foldl f g) :=
  foldl_keeps (I := Reworks p g) (fun _ j hj h => h.trans (hf _ j hj (h.mem_jobList.2 (hl j hj))))
    (.refl p g)

/-! ### Primitive steps -/

theorem signal (s : Signal) : Reworks p g (g.signal s) :=
  ⟨rfl, rfl, fun _ => rfl, fun _ => rfl, fun _ => .refl _, fun _ => rfl, fun _ _ => rfl,
    fun _ _ _ => .rfl, fun _ _ => List.Subset.refl _⟩

section

variable (hj : j ∈ (g.part p).jobList)
include hj

theorem setJob {a : GsJob} (ha : a.jobPtr = (g.job j).jobPtr) :
    Reworks p g (g.setJob j a) := by
  refine ⟨rfl, rfl, fun _ => rfl, fun _ => rfl, fun _ => .refl _, fun k => ?_, fun k hk => ?_,
    fun _ _ _ => .rfl, fun _ _ => List.Subset.refl _⟩
  · rw [job_setJob, Function.update_apply]
    split_ifs with h
    · rw [h, ha]
    · rfl
  · rw [job_setJob, Function.update_of_ne]
    rintro rfl
    exact hk hj

theorem setRow (row : RowState) : Reworks p g (g.setRow j row) :=
  setJob hj rfl

theorem setSig (sig : SigState) : Reworks p g (g.setSig j sig) :=
  setJob hj rfl

theorem suspendJob : Reworks p g (g.suspendJob p j) :=
  (signal _).trans (setSig (g := g.signal _) hj _)

theorem resumeJob : Reworks p g (g.resumeJob j) :=
  (signal _).trans (setSig (g := g.signal _) hj _)

end

variable [DecidableEq ι]

theorem setPart {r : GsPart} (hname : r.partName = (g.part p).partName)
    (hprio : r.priority = (g.part p).priority) (hjobs : r.jobList.Perm (g.part p).jobList)
    (hshadow : r.shadow = (g.part p).shadow) : Reworks p g (g.setPart p r) := by
  refine ⟨rfl, rfl, fun q => ?_, fun q => ?_, fun q => ?_, fun _ => rfl, fun _ _ => rfl,
    fun q j _ => ?_, fun q _ => ?_⟩ <;>
  · by_cases hq : q = p
    · subst hq
      simp [hname, hprio, hjobs, hshadow]
    · simp [part_setPart_of_ne _ hq]

theorem putInRow : Reworks p g (g.putInRow P p j) := setPart rfl rfl (.refl _) rfl

section

variable (hj : j ∈ (g.part p).jobList)
include hj

theorem castShadow : Reworks p g (g.castShadow j (g.part p).priority) := by
  refine ⟨rfl, rfl, fun q => by rw [part_castShadow], fun q => by rw [part_castShadow],
    fun q => by rw [part_castShadow], fun _ => rfl, fun _ _ => rfl, fun q k hk => ?_,
    fun q hq k hk => ?_⟩
  · rw [mem_shadow_castShadow]
    refine ⟨fun h => h.resolve_right ?_, .inl⟩
    rintro ⟨rfl, -, -⟩
    exact hk hj
  · rcases mem_shadow_castShadow.1 hk with h | ⟨-, -, hlt⟩
    · exact h
    · omega

theorem clearShadow : Reworks p g (g.clearShadow j) := by
  refine ⟨rfl, rfl, fun q => by rw [part_clearShadow], fun q => by rw [part_clearShadow],
    fun q => by rw [part_clearShadow], fun _ => rfl, fun _ _ => rfl, fun q k hk => ?_,
    fun q _ => shadow_clearShadow_subset⟩
  refine mem_shadow_clearShadow ?_
  rintro rfl
  exact hk hj

/-! ### Loop bodies -/

theorem place : Reworks p g ((g.putInRow P p j).castShadow j (g.part p).priority) := by
  have h : Reworks p g (g.putInRow P p j) := putInRow
  refine h.trans ?_
  rw [← h.priority p]
  exact castShadow (h.mem_jobList.2 hj)

theorem keepInRow (row : RowState) : Reworks p g (Gs.keepInRow P row p g j) := by
  rw [Gs.keepInRow]
  split_ifs with hrow hfit hsig
  · exact refl p g
  · exact place hj
  · have h := suspendJob hj
    have h' := h.trans (clearShadow (h.mem_jobList.2 hj))
    exact h'.trans (setRow (h'.mem_jobList.2 hj) _)
  · exact setRow hj _

theorem fillRow : Reworks p g (Gs.fillRow P p g j) := by
  have h : Reworks p g (((g.putInRow P p j).castShadow j (g.part p).priority).setRow j .filler) :=
    (place hj).trans (setRow ((place hj).mem_jobList.2 hj) _)
  rw [Gs.fillRow]
  split_ifs with hrow hfit
  · exact refl p g
  · dsimp only
    split_ifs
    · exact h.trans (resumeJob (h.mem_jobList.2 hj))
    · exact h
  · exact refl p g

theorem activate : Reworks p g (Gs.activate P p g j) := by
  rw [Gs.activate]
  split_ifs
  · have h : Reworks p g (g.putInRow P p j) := putInRow
    exact h.trans (setRow (h.mem_jobList.2 hj) _)
  · exact refl p g

theorem stopJob : Reworks p g (Gs.stopJob p g j) := by
  rw [Gs.stopJob]
  split_ifs
  · have h := suspendJob hj
    exact h.trans (clearShadow (h.mem_jobList.2 hj))
  · exact refl p g

theorem wakeJob : Reworks p g (Gs.wakeJob p g j) := by
  rw [Gs.wakeJob]
  split_ifs
  · have h := resumeJob hj
    exact h.trans (castShadow (h.mem_jobList.2 hj))
  · exact refl p g

end

/-! ### Whole functions -/

theorem applyShadows : Reworks p g (g.applyShadows P p) :=
  foldl_keeps (I := Reworks p g) (fun _ _ _ h => h.trans putInRow) (setPart rfl rfl (.refl _) rfl)

theorem updateActiveRow (addNewJobs : Bool) : Reworks p g (Gs.updateActiveRow P addNewJobs g p) := by
  have h0 : Reworks p g (g.applyShadows P p) := applyShadows
  have h1 := h0.trans (foldl (fun g j _ hj => keepInRow (P := P) hj .active)
    fun j (hj : j ∈ (g.part p).jobList) => h0.mem_jobList.2 hj)
  have h2 := h1.trans (foldl (fun g j _ hj => keepInRow (P := P) hj .filler)
    fun j (hj : j ∈ (g.part p).jobList) => h1.mem_jobList.2 hj)
  rw [Gs.updateActiveRow]
  split_ifs
  · exact h2.trans (foldl (fun g j _ hj => fillRow hj) fun j hj => h2.mem_jobList.2 hj)
  · exact h2

end Reworks

end Gs

end Slurmpp.Gang
