/-
  Building the row of one partition.  The three loops of `_update_active_row` and `_build_active_row` do the same to a
  row: a job goes in only if it FITS (`InRow.put`), and who does not fit is taken out and loses its shadow.

  Two facts are carried through every loop, for the set `T` of jobs put in so far:

  * `InRow`  — the cores of `T` are apart, and apart from those of the shadows;
  * `Cast`   — the jobs of `T` are shadows on all partitions below.
-/
import Slurmpp.Gang.Cycle

namespace Slurmpp.Gang

namespace Gs

variable {ι : Type*} {g g' : Gs ι} {p q : ι} {j k : Nat} {P : Phys}
  {T U : Nat → Prop}

/-! ## Jobs in the row -/

def Running (g : Gs ι) (p : ι) (j : Nat) : Prop :=
  j ∈ (g.part p).jobList ∧ (g.job j).sigState = .resume

/-- The cores of the jobs `T` are apart, and apart from those of the shadows `S`. -/
structure Apart (P : Phys) (g : Gs ι) (S : List Nat) (T : Nat → Prop) : Prop where
  clash : ∀ j k, T j → T k → j ≠ k → Disjoint ((g.resrcs j).cores P) ((g.resrcs k).cores P)
  shade : ∀ j, T j → ∀ k ∈ S, Disjoint ((g.resrcs j).cores P) ((g.resrcs k).cores P)

/-- **The jobs `T` are in the row of `p`**, together with the shadows on it. -/
structure InRow (P : Phys) (g : Gs ι) (p : ι) (T : Nat → Prop) : Prop extends Apart P g (g.part p).shadow T where
  mine : ∀ j, T j → (g.resrcs j).cores P ⊆ (g.part p).occupied
  theirs : ∀ k ∈ (g.part p).shadow, (g.resrcs k).cores P ⊆ (g.part p).occupied

/-- The jobs `T` of partition `p` are shadows on all partitions below. -/
def Cast (g : Gs ι) (p : ι) (T : Nat → Prop) : Prop :=
  ∀ j, T j → ∀ q ∈ g.partList, (g.part q).priority < (g.part p).priority → j ∈ (g.part q).shadow

variable {S jobs seen : List Nat} {B : RowState → Bool} {r : RowState}

theorem Apart.mono {S' : List Nat} (h : Apart P g S T) (hS : S' ⊆ S) (hU : ∀ j, U j → T j) : Apart P g S' U :=
  ⟨fun j k hj hk => h.clash j k (hU j hj) (hU k hk), fun j hj k hk => h.shade j (hU j hj) k (hS hk)⟩

theorem Apart.congr (h : Apart P g S T) (hres : ∀ j, g'.resrcs j = g.resrcs j) : Apart P g' S T := by
  refine ⟨fun j k hj hk hne => ?_, fun j hj k hk => ?_⟩
  · rw [hres, hres]
    exact h.clash j k hj hk hne
  · rw [hres, hres]
    exact h.shade j hj k hk

theorem InRow.mono (h : InRow P g p T) (hU : ∀ j, U j → T j) : InRow P g p U :=
  ⟨h.toApart.mono (List.Subset.refl _) hU, fun j hj => h.mine j (hU j hj), h.theirs⟩

theorem InRow.congr (h : InRow P g p T) (hres : ∀ j, g'.resrcs j = g.resrcs j)
    (hocc : (g'.part p).occupied = (g.part p).occupied)
    (hshadow : (g'.part p).shadow ⊆ (g.part p).shadow) : InRow P g' p T := by
  refine ⟨(h.toApart.congr hres).mono hshadow fun _ hj => hj, fun j hj => ?_, fun k hk => ?_⟩
  · rw [hres, hocc]
    exact h.mine j hj
  · rw [hres, hocc]
    exact h.theirs k (hshadow hk)

/-- The jobs that a loop over `jobs` has put in: those of the states `B`, and of those already seen
    the ones of state `row`. -/
def Taken (jobs : List Nat) (B : RowState → Bool) (row : RowState) (seen : List Nat) (g : Gs ι) (j : Nat) : Prop :=
  j ∈ jobs ∧ B (g.job j).rowState = true ∨ j ∈ seen ∧ (g.job j).rowState = row

theorem Taken.of_snoc (h : Taken jobs B r (seen ++ [j]) g k) :
    Taken jobs B r seen g k ∨ k = j ∧ (g.job j).rowState = r := by
  rcases h with h | ⟨hk, hrow⟩
  · exact .inl (.inl h)
  · rcases List.mem_append.1 hk with hk | hk
    · exact .inl (.inr ⟨hk, hrow⟩)
    · obtain rfl := List.mem_singleton.1 hk
      exact .inr ⟨rfl, hrow⟩

variable [DecidableEq ι]

theorem shadow_putInRow : ((g.putInRow P p j).part q).shadow = (g.part q).shadow :=
  congrArg Prod.snd (lists_putInRow q)

theorem occupied_putInRow (hP : P.grType = .core) : ((g.putInRow P p j).part p).occupied =
    (g.part p).occupied ∪ (g.resrcs j).cores P := by
  rw [putInRow, part_setPart_self, occupied_addJobToActive hP]

/-- **A job that fits is put into the row.** -/
theorem InRow.put (h : InRow P g p T) (hP : P.grType = .core) (hfit : g.fits P p j = true) :
    InRow P (g.putInRow P p j) p fun k => T k ∨ k = j := by
  have hfree := (jobFitsInActiveRow_iff hP).1 hfit
  have hj : ∀ k, T k → Disjoint ((g.resrcs k).cores P) ((g.resrcs j).cores P) := fun k hk =>
    (hfree.mono_right (h.mine k hk)).symm
  refine ⟨⟨?_, ?_⟩, ?_, ?_⟩
  · rintro i k (hi | rfl) (hk | rfl) hne
    · exact h.clash i k hi hk hne
    · exact hj i hi
    · exact (hj k hk).symm
    · exact absurd rfl hne
  · rw [shadow_putInRow]
    rintro i (hi | rfl) k hk
    · exact h.shade i hi k hk
    · exact hfree.mono_right (h.theirs k hk)
  · rw [occupied_putInRow hP]
    rintro i (hi | rfl)
    · exact (h.mine i hi).trans Finset.subset_union_left
    · exact Finset.subset_union_right
  · rw [shadow_putInRow, occupied_putInRow hP]
    exact fun k hk => (h.theirs k hk).trans Finset.subset_union_left

theorem shadow_applyShadows : ((g.applyShadows P p).part q).shadow = (g.part q).shadow :=
  congrArg Prod.snd (lists_applyShadows q)

theorem inRow_applyShadows (hP : P.grType = .core) : InRow P (g.applyShadows P p) p fun _ => False := by
  refine ⟨⟨by simp, by simp⟩, by simp, fun k hk => ?_⟩
  rw [shadow_applyShadows] at hk
  rw [resrcs, job_applyShadows]
  -- each shadow is put in and stays in
  have hall := foldl_each (f := fun g k => g.putInRow P p k)
    (Q := fun k (g' : Gs ι) => g'.job = g.job → (g.resrcs k).cores P ⊆ (g'.part p).occupied)
    (fun g' k _ hjob => ?_) (fun g' i _ k _ h hjob => ?_)
    (g.setPart p { g.part p with jobsActive := 0 }) k hk
  · exact hall (job_applyShadows)
  · rw [occupied_putInRow hP, resrcs, resrcs, ← hjob]
    exact Finset.subset_union_right
  · rw [occupied_putInRow hP]
    exact (h hjob).trans Finset.subset_union_left

/-! ## What a loop does to a job -/

variable (P) in
/-- A job is put into the row and casts its shadow. -/
def place (p : ι) (g : Gs ι) (j : Nat) : Gs ι :=
  (g.putInRow P p j).castShadow j (g.part p).priority

/-- A job is caught in a shadow. -/
def dropJob (p : ι) (g : Gs ι) (j : Nat) : Gs ι :=
  (if (g.job j).sigState ≠ .suspend then (g.suspendJob p j).clearShadow j else g).setRow j .noActive

variable (P) in
/-- A job that waits becomes a filler. -/
def startJob (p : ι) (g : Gs ι) (j : Nat) : Gs ι :=
  if (((place P p g j).setRow j .filler).job j).sigState = .suspend then
    ((place P p g j).setRow j .filler).resumeJob j
  else (place P p g j).setRow j .filler

theorem keepInRow_eq (row : RowState) : keepInRow P row p g j =
    if (g.job j).rowState ≠ row then g else if g.fits P p j then place P p g j else dropJob p g j := rfl

theorem fillRow_eq : fillRow P p g j =
    if (g.job j).rowState ≠ .noActive then g else if g.fits P p j then startJob P p g j else g := rfl

@[simp] theorem job_place : (place P p g j).job = g.job := rfl

theorem job_dropJob : (dropJob p g j).job k =
    if k = j then { g.job j with sigState := .suspend, rowState := .noActive } else g.job k := by
  rw [dropJob, job_setRow]
  by_cases hk : k = j
  · rw [if_pos hk, if_pos hk]
    split_ifs with hs
    · rw [job_clearShadow, job_suspendJob, if_pos rfl]
    · rw [not_not] at hs
      rw [← hs]
  · rw [if_neg hk, if_neg hk]
    split_ifs
    · rw [job_clearShadow, job_suspendJob, if_neg hk]
    · rfl

theorem job_startJob : (startJob P p g j).job k =
    if k = j then ⟨(g.job j).jobPtr, .resume, .filler⟩ else g.job k := by
  have hset : ∀ i, ((place P p g j).setRow j .filler).job i =
      if i = j then { g.job j with rowState := .filler } else g.job i := fun i => by
    rw [job_setRow, job_place]
  have hsig : (((place P p g j).setRow j .filler).job j).sigState = (g.job j).sigState := by
    rw [hset, if_pos rfl]
  rw [startJob, hsig]
  by_cases hk : k = j
  · rw [if_pos hk]
    cases hs : (g.job j).sigState with
    | suspend => rw [if_pos rfl, job_resumeJob, if_pos hk, hset, if_pos rfl]
    | resume => rw [if_neg (by simp), hset, if_pos hk, ← hs]
  · rw [if_neg hk]
    split_ifs
    · rw [job_resumeJob, if_neg hk, hset, if_neg hk]
    · rw [hset, if_neg hk]

theorem priority_putInRow : ((g.putInRow P p j).part q).priority = (g.part q).priority :=
  (Reworks.putInRow (P := P) (p := p) (j := j)).priority q

theorem priority_place : ((place P p g j).part q).priority = (g.part q).priority := by
  rw [place, part_castShadow]
  exact priority_putInRow

theorem mem_shadow_place : k ∈ ((place P p g j).part q).shadow ↔
    k ∈ (g.part q).shadow ∨ k = j ∧ q ∈ g.partList ∧ (g.part q).priority < (g.part p).priority := by
  rw [place, mem_shadow_castShadow, shadow_putInRow, priority_putInRow, partList_putInRow]

theorem part_startJob : (startJob P p g j).part = (place P p g j).part := by
  rw [startJob]
  split_ifs <;> rfl

theorem partList_startJob : (startJob P p g j).partList = g.partList := by
  rw [startJob]
  split_ifs <;> rfl

theorem partList_dropJob : (dropJob p g j).partList = g.partList := by
  rw [dropJob]
  split_ifs <;> rfl

theorem priority_dropJob : ((dropJob p g j).part q).priority = (g.part q).priority := by
  rw [dropJob, part_setRow]
  split_ifs
  · rw [part_clearShadow]
    rfl
  · rfl

theorem occupied_dropJob : ((dropJob p g j).part q).occupied = (g.part q).occupied := by
  rw [dropJob, part_setRow]
  split_ifs
  · rw [part_clearShadow]
    rfl
  · rfl

theorem shadow_dropJob_subset : ((dropJob p g j).part q).shadow ⊆ (g.part q).shadow := by
  rw [dropJob, part_setRow]
  split_ifs
  · exact shadow_clearShadow_subset
  · exact List.Subset.refl _

theorem mem_shadow_dropJob (hne : k ≠ j) : k ∈ ((dropJob p g j).part q).shadow ↔ k ∈ (g.part q).shadow := by
  rw [dropJob, part_setRow]
  split_ifs
  · exact mem_shadow_clearShadow hne
  · exact Iff.rfl

/-! ## Jobs in the row and their shadows -/

theorem InRow.place (h : InRow P g p T) (hP : P.grType = .core) (hfit : g.fits P p j = true) :
    InRow P (Gs.place P p g j) p fun k => T k ∨ k = j := by
  refine (h.put hP hfit).congr (fun _ => rfl) ?_ fun k hk => ?_
  · rw [Gs.place, part_castShadow]
    rfl
  · rw [shadow_putInRow]
    -- one's own shadow does not fall on oneself
    rcases mem_shadow_place.1 hk with h | ⟨-, -, hlt⟩
    · exact h
    · omega

theorem Cast.place (hc : Cast g p T) : Cast (Gs.place P p g j) p fun k => T k ∨ k = j := by
  intro k hk q hq hlt
  rw [priority_place, priority_place] at hlt
  rw [mem_shadow_place]
  rcases hk with hk | hk
  · exact .inl (hc k hk q hq hlt)
  · exact .inr ⟨hk, hq, hlt⟩

theorem InRow.startJob (h : InRow P g p T) (hP : P.grType = .core) (hfit : g.fits P p j = true) :
    InRow P (Gs.startJob P p g j) p fun k => T k ∨ k = j := by
  refine (h.place hP hfit).congr (fun k => ?_) ?_ ?_
  · rw [resrcs, resrcs, job_startJob]
    split_ifs with hk
    · rw [hk]
      rfl
    · rfl
  · rw [part_startJob]
  · rw [part_startJob]
    exact List.Subset.refl _

theorem Cast.startJob (hc : Cast g p T) : Cast (Gs.startJob P p g j) p fun k => T k ∨ k = j := by
  intro k hk q hq hlt
  rw [part_startJob] at hlt ⊢
  rw [partList_startJob] at hq
  exact hc.place k hk q hq hlt

theorem InRow.dropJob (h : InRow P g p T) : InRow P (Gs.dropJob p g j) p T := by
  refine h.congr (fun k => ?_) occupied_dropJob shadow_dropJob_subset
  rw [resrcs, resrcs, job_dropJob]
  split_ifs with hk
  · rw [hk]
  · rfl

theorem Cast.dropJob (hc : Cast g p T) (hj : ¬T j) : Cast (Gs.dropJob p g j) p T := by
  intro k hk q hq hlt
  rw [priority_dropJob, priority_dropJob] at hlt
  rw [partList_dropJob] at hq
  have hne : k ≠ j := fun he => hj (he ▸ hk)
  exact (mem_shadow_dropJob hne).2 (hc k hk q hq hlt)

/-! ## The loops of `_update_active_row` -/

/-- Of the `jobs`, exactly those in the row run. -/
def AgreeOn (jobs : List Nat) (g : Gs ι) : Prop :=
  ∀ j ∈ jobs, (g.job j).sigState = .resume ↔ (g.job j).rowState ≠ .noActive

theorem AgreeOn.dropJob (h : AgreeOn jobs g) : AgreeOn jobs (Gs.dropJob p g j) := by
  intro k hk
  rw [job_dropJob]
  split_ifs
  · simp
  · exact h k hk

theorem AgreeOn.startJob (h : AgreeOn jobs g) : AgreeOn jobs (Gs.startJob P p g j) := by
  intro k hk
  rw [job_startJob]
  split_ifs
  · simp
  · exact h k hk

theorem Taken.of_dropJob (hB : B .noActive = false) (hrow : r ≠ .noActive)
    (h : Taken jobs B r (seen ++ [j]) (dropJob p g j) k) : Taken jobs B r seen g k := by
  by_cases hk : k = j
  · have hout : ((dropJob p g j).job k).rowState = .noActive := by
      rw [job_dropJob, if_pos hk]
    rcases h with ⟨-, h⟩ | ⟨-, h⟩
    · rw [hout, hB] at h
      cases h
    · exact absurd (h.symm.trans hout) hrow
  · have hsame : (dropJob p g j).job k = g.job k := by
      rw [job_dropJob, if_neg hk]
    rw [Taken, hsame] at h
    exact (Taken.of_snoc h).resolve_right fun he => hk he.1

/-- **The loops that keep jobs.**  After the loop over the jobs of state `row`, those still of that
    state are in the row and cast their shadows, beside those that were in it. -/
theorem keep_loop (hP : P.grType = .core) (hnodup : jobs.Nodup) (hB : B r = false)
    (hB' : B .noActive = false) (hrow : r ≠ .noActive) (h : InRow P g p (Taken jobs B r [] g))
    (hc : Cast g p (Taken jobs B r [] g)) (ha : AgreeOn jobs g) :
    InRow P (jobs.foldl (keepInRow P r p) g) p
        (Taken jobs B r jobs (jobs.foldl (keepInRow P r p) g)) ∧
      Cast (jobs.foldl (keepInRow P r p) g) p
        (Taken jobs B r jobs (jobs.foldl (keepInRow P r p) g)) ∧ AgreeOn jobs (jobs.foldl (keepInRow P r p) g) := by
  refine foldl_prefix (I := fun seen g' => InRow P g' p (Taken jobs B r seen g') ∧
    Cast g' p (Taken jobs B r seen g') ∧ AgreeOn jobs g') ⟨h, hc, ha⟩ ?_
  rintro seen j post g hjobs ⟨hI, hC, hA⟩
  rw [keepInRow_eq]
  split_ifs with hstate hfit
  · -- not of the state in question
    have hsame : ∀ k, Taken jobs B r (seen ++ [j]) g k → Taken jobs B r seen g k := fun k hk =>
      hk.of_snoc.resolve_right fun he => hstate he.2
    exact ⟨hI.mono hsame, fun k hk => hC k (hsame k hk), hA⟩
  · have hsame : ∀ k, Taken jobs B r (seen ++ [j]) (place P p g j) k →
        Taken jobs B r seen g k ∨ k = j := fun k hk => (Taken.of_snoc hk).imp_right And.left
    exact ⟨(hI.place hP hfit).mono hsame, fun k hk => hC.place k (hsame k hk), hA⟩
  · rw [not_not] at hstate
    have hnot : ¬Taken jobs B r seen g j := by
      rintro (⟨-, hj⟩ | ⟨hj, -⟩)
      · rw [hstate, hB] at hj
        cases hj
      · rw [hjobs] at hnodup
        exact (List.nodup_append.1 hnodup).2.2 j hj j List.mem_cons_self rfl
    have hsame : ∀ k, Taken jobs B r (seen ++ [j]) (dropJob p g j) k →
        Taken jobs B r seen g k := fun k hk => hk.of_dropJob hB' hrow
    exact ⟨hI.dropJob.mono hsame, fun k hk => hC.dropJob hnot k (hsame k hk), hA.dropJob⟩

def InRowOf (jobs : List Nat) (g : Gs ι) (j : Nat) : Prop :=
  j ∈ jobs ∧ (g.job j).rowState ≠ .noActive

/-- **The loop that fills up.** -/
theorem fill_loop (hP : P.grType = .core) (h : InRow P g p (InRowOf jobs g))
    (hc : Cast g p (InRowOf jobs g)) (ha : AgreeOn jobs g) :
    InRow P (jobs.foldl (fillRow P p) g) p (InRowOf jobs (jobs.foldl (fillRow P p) g)) ∧
      Cast (jobs.foldl (fillRow P p) g) p (InRowOf jobs (jobs.foldl (fillRow P p) g)) ∧
      AgreeOn jobs (jobs.foldl (fillRow P p) g) := by
  refine foldl_keeps (I := fun g' : Gs ι => InRow P g' p (InRowOf jobs g') ∧
    Cast g' p (InRowOf jobs g') ∧ AgreeOn jobs g') (fun g j hj => ?_) ⟨h, hc, ha⟩
  rintro ⟨hI, hC, hA⟩
  rw [fillRow_eq]
  split_ifs with hstate hfit
  · exact ⟨hI, hC, hA⟩
  · have hsame : ∀ k, InRowOf jobs (startJob P p g j) k → InRowOf jobs g k ∨ k = j := by
      rintro k ⟨hk, hrow⟩
      by_cases hkj : k = j
      · exact .inr hkj
      · rw [job_startJob, if_neg hkj] at hrow
        exact .inl ⟨hk, hrow⟩
    exact ⟨(hI.startJob hP hfit).mono hsame, fun k hk => hC.startJob k (hsame k hk), hA.startJob⟩
  · exact ⟨hI, hC, hA⟩

/-- **`_update_active_row`** rebuilds a row from nothing: whatever was in it, afterwards who runs is
    in it and casts a shadow. -/
theorem updateActiveRow_inRow (hP : P.grType = .core) (addNewJobs : Bool)
    (hnodup : (g.part p).jobList.Nodup) (ha : AgreeOn (g.part p).jobList g) :
    InRow P (updateActiveRow P addNewJobs g p) p
        (InRowOf (g.part p).jobList (updateActiveRow P addNewJobs g p)) ∧
      Cast (updateActiveRow P addNewJobs g p) p
        (InRowOf (g.part p).jobList (updateActiveRow P addNewJobs g p)) ∧
      AgreeOn (g.part p).jobList (updateActiveRow P addNewJobs g p) := by
  have hnone : ∀ k, ¬Taken (g.part p).jobList (fun _ => false) .active [] (g.applyShadows P p) k := by
    simp [Taken]
  obtain ⟨hI, hC, hA⟩ := keep_loop
    hP hnodup rfl rfl (by simp)
    ((inRow_applyShadows hP).mono fun k hk => hnone k hk) (fun k hk => absurd hk (hnone k))
    (by rw [AgreeOn, job_applyShadows]; exact ha)
  set g1 := (g.part p).jobList.foldl (keepInRow P .active p) (g.applyShadows P p) with hg1
  -- the active jobs are taken; now the fillers
  have hactive : ∀ k, Taken (g.part p).jobList (fun r => decide (r = .active)) .filler [] g1 k →
      Taken (g.part p).jobList (fun _ => false) .active (g.part p).jobList g1 k := by
    rintro k (⟨hk, hrow⟩ | ⟨hk, -⟩)
    · exact .inr ⟨hk, of_decide_eq_true hrow⟩
    · cases hk
  obtain ⟨hI, hC, hA⟩ := keep_loop
    hP hnodup rfl rfl (by simp)
    (hI.mono hactive) (fun k hk => hC k (hactive k hk)) hA
  set g2 := (g.part p).jobList.foldl (keepInRow P .filler p) g1 with hg2
  have hall : ∀ k, InRowOf (g.part p).jobList g2 k →
      Taken (g.part p).jobList (fun r => decide (r = .active)) .filler (g.part p).jobList g2 k := by
    rintro k ⟨hk, hrow⟩
    cases hr : (g2.job k).rowState with
    | active => exact .inl ⟨hk, by rw [hr]; rfl⟩
    | noActive => exact absurd hr hrow
    | filler => exact .inr ⟨hk, hr⟩
  have hI := hI.mono hall
  have hC : Cast g2 p (InRowOf (g.part p).jobList g2) := fun k hk => hC k (hall k hk)
  rw [updateActiveRow]
  split_ifs
  · exact fill_loop hP hI hC hA
  · exact ⟨hI, hC, hA⟩

/-! ## Keeping jobs casts no new shadows -/

theorem applyShadows_cast (h : Cast g p T) : Cast (g.applyShadows P p) p T := by
  intro j hj q hq hlt
  have hr : Reworks p g (g.applyShadows P p) := Reworks.applyShadows
  rw [hr.priority, hr.priority] at hlt
  rw [hr.partList] at hq
  rw [shadow_applyShadows]
  exact h j hj q hq hlt

theorem keepInRow_shadow {row : RowState} (hrow : row ≠ .noActive) (hj : j ∈ jobs) (hc : Cast g p (InRowOf jobs g)) :
    (∀ q, ((keepInRow P row p g j).part q).shadow ⊆ (g.part q).shadow) ∧
      Cast (keepInRow P row p g j) p (InRowOf jobs (keepInRow P row p g j)) := by
  rw [keepInRow_eq]
  split_ifs with hstate hfit
  · exact ⟨fun q => List.Subset.refl _, hc⟩
  · rw [not_not] at hstate
    have hjrow : InRowOf jobs g j := ⟨hj, hstate ▸ hrow⟩
    refine ⟨fun q k hk => ?_, fun k hk => hc.place k (.inl hk)⟩
    rcases mem_shadow_place.1 hk with h | ⟨rfl, hq, hlt⟩
    · exact h
    · exact hc k hjrow q hq hlt
  · have hout : ∀ k, InRowOf jobs (dropJob p g j) k → InRowOf jobs g k ∧ k ≠ j := by
      rintro k ⟨hk, hr⟩
      rw [job_dropJob] at hr
      split_ifs at hr with hkj
      · exact absurd rfl hr
      · exact ⟨⟨hk, hr⟩, hkj⟩
    have hc' : Cast g p (InRowOf jobs (dropJob p g j)) := fun k hk => hc k (hout k hk).1
    exact ⟨fun q => shadow_dropJob_subset, hc'.dropJob fun h => (hout j h).2 rfl⟩

/-- **`_update_active_row` without new jobs** only takes shadows away. -/
theorem updateActiveRow_shadow (ha : AgreeOn (g.part p).jobList g) (hc : Cast g p (Running g p)) :
    ((updateActiveRow P false g p).part q).shadow ⊆ (g.part q).shadow := by
  have hloop : ∀ (row : RowState), row ≠ .noActive → ∀ g' : Gs ι,
      ((∀ q, (g'.part q).shadow ⊆ (g.part q).shadow) ∧
        Cast g' p (InRowOf (g.part p).jobList g')) →
      (∀ q, (((g.part p).jobList.foldl (keepInRow P row p) g').part q).shadow ⊆
        (g.part q).shadow) ∧ Cast ((g.part p).jobList.foldl (keepInRow P row p) g') p
          (InRowOf (g.part p).jobList ((g.part p).jobList.foldl (keepInRow P row p) g')) := by
    intro row hrow g' h
    refine foldl_keeps (I := fun g' : Gs ι => (∀ q, (g'.part q).shadow ⊆ (g.part q).shadow) ∧
      Cast g' p (InRowOf (g.part p).jobList g')) (fun g' j hj h => ?_) h
    obtain ⟨hsub, hc⟩ := keepInRow_shadow hrow hj h.2
    exact ⟨fun q => List.Subset.trans (hsub q) (h.1 q), hc⟩
  have hstart : Cast (g.applyShadows P p) p
      (InRowOf (g.part p).jobList (g.applyShadows P p)) := by
    refine applyShadows_cast fun k hk => hc k ⟨hk.1, (ha k hk.1).2 ?_⟩
    have := hk.2
    rwa [job_applyShadows] at this
  have h1 := hloop .active (by simp) (g.applyShadows P p)
    ⟨fun q => by rw [shadow_applyShadows]; exact List.Subset.refl _, hstart⟩
  have h2 := hloop .filler (by simp) _ h1
  rw [updateActiveRow, if_neg (by simp)]
  exact h2.1 q

/-! ## A turn -/

def ActiveOf (jobs : List Nat) (g : Gs ι) (j : Nat) : Prop :=
  j ∈ jobs ∧ (g.job j).rowState = .active

/-- **`_build_active_row`**, when nobody is in the row. -/
theorem buildActiveRow_apart (hP : P.grType = .core) (hout : ∀ j ∈ (g.part p).jobList, (g.job j).rowState ≠ .active) :
    Apart P (g.buildActiveRow P p) ((g.buildActiveRow P p).part p).shadow
      (ActiveOf (g.part p).jobList (g.buildActiveRow P p)) := by
  rw [buildActiveRow]
  split_ifs with hnil
  · refine ⟨fun j _ hj => ?_, fun j hj => ?_⟩ <;>
    · have := hj.1
      rw [hnil] at this
      cases this
  · refine InRow.toApart (foldl_keeps (I := fun g' : Gs ι =>
      InRow P g' p (ActiveOf (g.part p).jobList g')) (fun g' j hj h => ?_) ?_)
    · rw [activate]
      split_ifs with hfit
      · refine InRow.mono (InRow.congr (h.put hP hfit) (fun k => ?_) rfl (List.Subset.refl _)) ?_
        · rw [resrcs, resrcs, job_setRow]
          split_ifs with hk
          · rw [hk]
          · rfl
        · rintro k ⟨hk, hrow⟩
          by_cases hkj : k = j
          · exact .inr hkj
          · rw [job_setRow, if_neg hkj] at hrow
            exact .inl ⟨hk, hrow⟩
      · exact h
    · refine (inRow_applyShadows hP).mono fun k hk => hout k hk.1 ?_
      have := hk.2
      rwa [job_applyShadows] at this

theorem shadow_cycleRows (hnodup : (g.part p).jobList.Nodup) :
    ((g.cycleRows P p).part q).shadow = (g.part q).shadow := by
  rw [cycleRows_eq hnodup]
  exact (congrArg Prod.snd (lists_buildActiveRow q)).trans (field_setPart (·.shadow) (by rfl))

theorem stopJob_shadow : ((stopJob p g j).part q).shadow ⊆ (g.part q).shadow := by
  rw [stopJob]
  split_ifs
  · exact shadow_clearShadow_subset
  · exact List.Subset.refl _

theorem wakeJob_shadow : ((wakeJob p g j).part p).shadow ⊆ (g.part p).shadow := by
  rw [wakeJob]
  split_ifs
  · intro k hk
    rcases mem_shadow_castShadow.1 hk with h | ⟨-, -, hlt⟩
    · exact h
    · exact absurd hlt (Nat.lt_irrefl _)
  · exact List.Subset.refl _

theorem cycleJobList_shadow : ((g.cycleJobList P p).part p).shadow ⊆ ((g.cycleRows P p).part p).shadow :=
  foldl_keeps (I := fun g' : Gs ι => (g'.part p).shadow ⊆ ((g.cycleRows P p).part p).shadow)
    (fun _ _ _ h => List.Subset.trans wakeJob_shadow h)
    (foldl_keeps (I := fun g' : Gs ι => (g'.part p).shadow ⊆ ((g.cycleRows P p).part p).shadow)
      (fun _ _ _ h => List.Subset.trans stopJob_shadow h) (List.Subset.refl _))

theorem cycleJobList_apart (hP : P.grType = .core) (hnodup : (g.part p).jobList.Nodup) :
    Apart P (g.cycleJobList P p) ((g.cycleJobList P p).part p).shadow (Running (g.cycleJobList P p) p) := by
  have hrows : Apart P (g.cycleRows P p) ((g.cycleRows P p).part p).shadow
      (ActiveOf ((g.cycleRows P p).part p).jobList (g.cycleRows P p)) := by
    rw [cycleRows_eq hnodup]
    rw [jobList_buildActiveRow]
    refine buildActiveRow_apart hP fun j hj => ?_
    rw [part_setPart_self] at hj
    rw [job_setPart]
    dsimp only [deactivate]
    rw [if_pos (Turns.mem_setBack.1 hj)]
    simp
  have hr1 : Reworks p g (g.cycleRows P p) := Reworks.cycleRows hnodup
  have hr2 : Reworks p g (g.cycleJobList P p) := Reworks.cycleJobList hnodup
  refine (hrows.congr fun j => ?_).mono cycleJobList_shadow fun j hj => ?_
  · rw [hr2.resrcs, hr1.resrcs]
  · have hj' := hr2.mem_jobList.1 hj.1
    refine ⟨hr1.mem_jobList.2 hj', ?_⟩
    rw [← rowState_cycleJobList]
    exact (sigState_cycleJobList hnodup hj').1 hj.2

/-- The jobs of the row that run. -/
def AwakeOf (jobs : List Nat) (g : Gs ι) (j : Nat) : Prop :=
  j ∈ jobs ∧ (g.job j).rowState = .active ∧ (g.job j).sigState = .resume

theorem Cast.stopJob (h : Cast g p (AwakeOf jobs g)) :
    Cast (Gs.stopJob p g j) p (AwakeOf jobs (Gs.stopJob p g j)) := by
  rw [Gs.stopJob]
  split_ifs with hstate
  · rintro k ⟨hk, hrow, hsig⟩ q hq hlt
    rw [job_clearShadow, job_suspendJob] at hrow hsig
    split_ifs at hrow hsig with hkj
    rw [part_clearShadow, part_clearShadow] at hlt
    exact (mem_shadow_clearShadow hkj).2 (h k ⟨hk, hrow, hsig⟩ q hq hlt)
  · exact h

theorem Cast.wakeJob (h : Cast g p (AwakeOf jobs g)) :
    Cast (Gs.wakeJob p g j) p (AwakeOf jobs (Gs.wakeJob p g j)) := by
  rw [Gs.wakeJob]
  split_ifs with hstate
  · rintro k ⟨hk, hrow, hsig⟩ q hq hlt
    rw [job_castShadow, job_resumeJob] at hrow hsig
    rw [part_castShadow, part_castShadow] at hlt
    rw [mem_shadow_castShadow]
    split_ifs at hrow hsig with hkj
    · exact .inr ⟨hkj, hq, hlt⟩
    · exact .inl (h k ⟨hk, hrow, hsig⟩ q hq hlt)
  · exact h

/-- After a turn the jobs that run cast their shadows, if those before it did: a job that goes on
    running is not signalled at all. -/
theorem cycleJobList_cast (hnodup : (g.part p).jobList.Nodup) (hc : Cast g p (Running g p)) :
    Cast (g.cycleJobList P p) p (Running (g.cycleJobList P p) p) := by
  have hr1 : Reworks p g (g.cycleRows P p) := Reworks.cycleRows hnodup
  have hr2 : Reworks p g (g.cycleJobList P p) := Reworks.cycleJobList hnodup
  have hrows : Cast (g.cycleRows P p) p (AwakeOf (g.part p).jobList (g.cycleRows P p)) := by
    rintro j ⟨hj, -, hsig⟩ q hq hlt
    rw [hr1.priority, hr1.priority] at hlt
    rw [shadow_cycleRows hnodup]
    rw [sigState_cycleRows hnodup] at hsig
    exact hc j ⟨hj, hsig⟩ q (hr1.partList ▸ hq) hlt
  have hloops : Cast (g.cycleJobList P p) p (AwakeOf (g.part p).jobList (g.cycleJobList P p)) :=
    foldl_keeps (I := fun g' : Gs ι => Cast g' p (AwakeOf (g.part p).jobList g'))
      (fun _ _ _ h => h.wakeJob)
      (foldl_keeps (I := fun g' : Gs ι => Cast g' p (AwakeOf (g.part p).jobList g'))
        (fun _ _ _ h => h.stopJob) hrows)
  intro j hj
  have hj' := hr2.mem_jobList.1 hj.1
  exact hloops j ⟨hj', (sigState_cycleJobList hnodup hj').1 hj.2, hj.2⟩

end Gs

end Slurmpp.Gang
