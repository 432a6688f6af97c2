/-
  Dependencies over a restart.  The state file holds the TEXT of the dependencies, not the list, so after any number
  of tests the text must still say what the list says.  It does as long as every test SPARES the text:

  * only entries for single jobs are cleared, and their ids are written as plain numerals;
  * no entry with the id of a cleared one is kept (all occurrences of an id go at once);
  * no group of the text loses its last item, and no singleton is lifted, while others remain;

  and as long as every id stands for the same job, the first task of an array is there while the array is waited
  for, and a job to be expanded can be expanded.

  **Text** (`foldl_rmDependency`), **groups** (`groupsEntries_keep`), **steps** (`synced_test`), **runs**
  (`restart_keeps`).
-/
import Slurmpp.Lib.Machine
import Slurmpp.Depend.Evolve

namespace Slurmpp.Depend

open Text List Option

variable {s s' : Jobs} {j max : Nat} {expandAllow : Bool} {t : DependType} {w : Text}
  {e : DependSpec}

/-! ## Cutting several ids -/

/-- The items that are the numeral of none of the ids. -/
def isKept (cs : List DependSpec) (w : Text) : Bool := cs.all fun c => isOther c.jobId w

theorem Group.keep_keep (f f' : Text → Bool) (g : Group) : (g.keep f).keep f' = g.keep fun w => f w && f' w := by
  rw [Group.keep, Group.keep, Group.keep, List.filter_filter]
  simp only [Bool.and_comm]

theorem Group.Neat.keep {g : Group} (h : g.Neat) (f : Text → Bool) : (g.keep f).Neat :=
  ⟨h.1, fun w hw => h.2 w (mem_filter.1 hw).1⟩

theorem Group.Regular.keep {g : Group} (h : g.Regular) {f : Text → Bool}
    (hkeep : g.items ≠ [] → ∃ w ∈ g.items, f w = true) : (g.keep f).Regular := by
  unfold Group.Regular at h ⊢
  split at h
  next hitems =>
    rwa [if_pos ((Group.keep_nil hkeep).2 hitems)]
  next hitems =>
    rw [if_neg (mt (Group.keep_nil hkeep).1 hitems)]
    exact ⟨h.1, fun v hv => h.2 v (mem_filter.1 hv).1⟩

variable {gs : List Group}

theorem map_keep_true (gs : List Group) : gs.map (Group.keep fun _ => true) = gs := by
  refine (map_congr_left fun g _ => ?_).trans (map_id gs)
  rw [Group.keep, filter_true]
  rfl

/-- **The ids of all cleared entries go.** -/
theorem foldl_rmDependency {cs : List DependSpec} (hcs : ∀ c ∈ cs, c.arrayTaskId = noVal16) (hn : ∀ g ∈ gs, g.Neat)
    (hws : ∀ c ∈ cs, ∀ g ∈ gs, ∀ w ∈ g.items, ItemFor c.jobId w)
    (hkeep : ∀ g ∈ gs, g.items ≠ [] → ∃ w ∈ g.items, isKept cs w = true) :
    cs.foldl (fun text e => text.map (rmDependency · e)) (some (ungroup gs)) =
      some (ungroup (gs.map (Group.keep (isKept cs)))) := by
  induction cs generalizing gs with
  | nil =>
    show _ = some (ungroup (gs.map (Group.keep fun _ => true)))
    rw [map_keep_true]
    rfl
  | cons c cs ih =>
    have hall : ∀ w, isKept (c :: cs) w = (isOther c.jobId w && isKept cs w) := fun w => rfl
    have hstep := rmDependency_ungroup (hcs c mem_cons_self) hn (hws c mem_cons_self) (by
      intro g hg hne
      obtain ⟨w, hw, hf⟩ := hkeep g hg hne
      rw [hall, Bool.and_eq_true] at hf
      exact ⟨w, hw, by simpa [isOther] using hf.1⟩)
    rw [foldl_cons, map_some, hstep, ih]
    · rw [List.map_map]
      congr 2
      refine map_congr_left fun g _ => ?_
      rw [Function.comp_apply, Group.keep_keep]
      rfl
    · exact (forall_mem_cons.1 hcs).2
    · intro g' hg'
      obtain ⟨g, hg, rfl⟩ := mem_map.1 hg'
      exact (hn g hg).keep _
    · intro c' hc' g' hg' w hw
      obtain ⟨g, hg, rfl⟩ := mem_map.1 hg'
      exact hws c' (mem_cons_of_mem _ hc') g hg w (mem_filter.1 hw).1
    · intro g' hg' hne
      obtain ⟨g, hg, rfl⟩ := mem_map.1 hg'
      have hitems : g.items ≠ [] := fun hnil => hne (by rw [Group.keep, hnil]; rfl)
      obtain ⟨w, hw, hf⟩ := hkeep g hg hitems
      rw [hall, Bool.and_eq_true] at hf
      exact ⟨w, mem_filter.2 ⟨hw, hf.1⟩, hf.2⟩

/-! ## Rounds -/

structure Round where
  jobs : Jobs
  now : Nat

def Jobs.textOf (s : Jobs) (j : Nat) : Text := ((s.job j).details.bind (·.dependency)).getD []

/-- The ids that the text and the list of a job name. -/
def namedIds (s : Jobs) (j : Nat) : List Nat :=
  (groups (s.textOf j)).flatMap (·.items.map itemId) ++ (s.entries j).map (·.jobId)

/-- The round spares the text of the job `j`. -/
structure Spares (j : Nat) (s : Jobs) (r : Round) : Prop where
  /-- Ids and tasks are unique. -/
  sound : r.jobs.Sound
  /-- No id that is named is used again. -/
  ids : KeepsIds s r.jobs (namedIds s j)
  /-- No singleton is lifted. -/
  lifted : ∀ e ∈ s.entries j, verdict r.jobs j (advance r.jobs e) ≠ .delete
  /-- No entry for an array or a task is cleared. -/
  single : ∀ c ∈ cleared r.jobs j (s.entries j), c.arrayTaskId = noVal16
  /-- The id of a cleared entry is written only as its numeral. -/
  numeral : ∀ g ∈ groups (s.textOf j), ∀ w ∈ g.items, ∀ c ∈ cleared r.jobs j (s.entries j),
    itemId w = c.jobId → w = ofNat c.jobId
  /-- Not one entry of two with an id is cleared. -/
  apart : ∀ e ∈ kept r.jobs j (s.entries j), ∀ c ∈ cleared r.jobs j (s.entries j), e.jobId ≠ c.jobId
  /-- No group is emptied. -/
  filled : ∀ g ∈ groups (s.textOf j), g.items ≠ [] → ∃ w ∈ g.items, isKept (cleared r.jobs j (s.entries j)) w = true
  /-- The job with the id of an array is there as long as the array is waited for. -/
  arrays : ∀ e ∈ kept r.jobs j (s.entries j), e.arrayTaskId = infinite16 → r.jobs.findJobRecord e.jobId ≠ none
  /-- A job that is to be expanded can be. -/
  expands : ∀ g ∈ groups (s.textOf j), readType g.word = some .expand → ∀ w ∈ g.items,
    isKept (cleared r.jobs j (s.entries j)) w = true → Expandable r.jobs j w

/-- Tests of the dependencies of `j`.  In between the other jobs change, and a test that fails is the
    end of the job. -/
def tests (j : Nat) : Machine Jobs Round where
  step s r :=
    if r.jobs.job j = s.job j then
      (testJobDependency r.jobs j r.now).bind fun (s', answer) =>
        if answer = .failure then none else some s'
    else none

/-- **The text says what the list says.** -/
structure Synced (expandAllow : Bool) (j : Nat) (s : Jobs) : Prop where
  sound : s.Sound
  stored : ∃ details, (s.job j).details = some details ∧ details.dependency = some (s.textOf j) ∧
    details.dependList = some (s.entries j)
  regular : ∀ g ∈ groups (s.textOf j), g.Regular
  reads : ∃ q, readGroups s j expandAllow (groups (s.textOf j)) (.start s j) = some q
  entries : (groups (s.textOf j)).flatMap (groupEntries s) = (s.entries j).map (restored s)

section Round

variable {r : Round} {l : List DependSpec}

theorem synced_of_stored {details : Details} (he : s'.erase = s.erase) (hs : s.Sound)
    (hd : (s'.job j).details = some details) (htext : details.dependency = some (ungroup gs))
    (hlist : details.dependList = some l) (hne : gs ≠ []) (hn : ∀ g ∈ gs, g.Neat) (hreg : ∀ g ∈ gs, g.Regular)
    (hread : ∃ q, readGroups s' j expandAllow gs (.start s' j) = some q)
    (hentries : gs.flatMap (groupEntries s) = l.map (restored s)) : Synced expandAllow j s' := by
  have hl : s'.entries j = l := by rw [Jobs.entries, hd, bind_some, hlist]; rfl
  have htextOf : s'.textOf j = ungroup gs := by rw [Jobs.textOf, hd, bind_some, htext]; rfl
  have hgs : groups (s'.textOf j) = gs := by rw [htextOf, groups_ungroup hne hn]
  refine ⟨hs.congr he.symm, ⟨details, hd, by rw [htext, htextOf], by rw [hlist, hl]⟩, by rwa [hgs], by rwa [hgs], ?_⟩
  rw [hgs, hl, funext (groupEntries_congr he), restored_congr he]
  exact hentries

theorem mem_cleared (he : e ∈ l) (hv : verdict s j (advance s e) = .clear) : advance s e ∈ cleared s j l :=
  mem_filter.2 ⟨mem_map_of_mem he, by simpa using hv⟩

theorem mem_kept (he : e ∈ l) (hv : (verdict s j (advance s e)).keeps = true) : advance s e ∈ kept s j l :=
  mem_filter.2 ⟨mem_map_of_mem he, hv⟩

theorem Synced.mem_entries (h : Synced expandAllow j s) (he : e ∈ s.entries j) :
    restored s e = singletonSpec ∨ ∃ g ∈ groups (s.textOf j), ∃ w ∈ g.items, ∃ t,
      itemTask w ≠ infinite16 ∧ itemEntry s t w = some (restored s e) := by
  have hmem : restored s e ∈ (groups (s.textOf j)).flatMap (groupEntries s) := by
    rw [h.entries]
    exact mem_map_of_mem he
  obtain ⟨g, hg, hmem⟩ := mem_flatMap.1 hmem
  have hreg := h.regular g hg
  unfold groupEntries at hmem
  unfold Group.Regular at hreg
  split_ifs at hmem hreg with hitems
  · exact .inl (mem_singleton.1 hmem)
  · obtain ⟨w, hw, hitem⟩ := mem_filterMap.1 hmem
    exact .inr ⟨g, hg, w, hw, _, hreg.2 w hw, hitem⟩

theorem Synced.jobId_lt (h : Synced expandAllow j s) (he : e ∈ s.entries j)
    (hno : e.arrayTaskId = noVal16) : e.jobId < 2 ^ 32 := by
  rcases h.mem_entries he with hsing | ⟨g, -, w, -, t, htask, hitem⟩
  · have htask : e.arrayTaskId = 0 := congrArg DependSpec.arrayTaskId hsing
    rw [hno] at htask
    cases htask
  · have hid : e.jobId = itemId w := (itemEntry_eq_some hitem).2.1 hno htask
    rw [hid]
    exact uint32_lt _

theorem exists_of_mem_cleared {c : DependSpec} (hc : c ∈ cleared s j l) :
    ∃ e ∈ l, c.jobId = e.jobId ∧ c.arrayTaskId = e.arrayTaskId := by
  obtain ⟨e, he, rfl⟩ := mem_map.1 (mem_filter.1 hc).1
  exact ⟨e, he, advance_jobId, advance_arrayTaskId⟩

variable {g : Group} {c : DependSpec} (hs : Synced expandAllow j s) (hsp : Spares j s r)
include hs hsp

theorem cleared_lt (hc : c ∈ cleared r.jobs j (s.entries j)) : c.jobId < 2 ^ 32 := by
  obtain ⟨e, he, hid, htask⟩ := exists_of_mem_cleared hc
  rw [hid]
  exact hs.jobId_lt he (htask ▸ hsp.single c hc)

theorem item_evolve (hg : g ∈ groups (s.textOf j)) (hw : w ∈ g.items) (htask : itemTask w ≠ infinite16)
    (ht : t ≠ .singleton) (he : e ∈ s.entries j) (h : itemEntry s t w = some (restored s e))
    (hfail : verdict r.jobs j (advance r.jobs e) ≠ .fail) :
    ((verdict r.jobs j (advance r.jobs e)).keeps = true ∧
        isKept (cleared r.jobs j (s.entries j)) w = true ∧
        itemEntry r.jobs t w = some (restored r.jobs (advance r.jobs e))) ∨
      ((verdict r.jobs j (advance r.jobs e)).keeps = false ∧ isKept (cleared r.jobs j (s.entries j)) w = false) := by
  obtain ⟨htype, hnum, -⟩ := itemEntry_eq_some h
  have htype' : (advance r.jobs e).dependType ≠ .singleton := by
    rw [advance_dependType]
    exact fun hc => ht (htype.symm.trans hc)
  cases hv : verdict r.jobs j (advance r.jobs e) with
  | keep depends failure =>
    have hkeeps : (verdict r.jobs j (advance r.jobs e)).keeps = true := by rw [hv]; rfl
    have hmem := mem_kept he hkeeps
    refine .inl ⟨rfl, ?_, ?_⟩
    · refine all_eq_true.2 fun c hc => ?_
      rw [isOther, decide_eq_true_eq]
      rintro rfl
      -- an item with the numeral of a cleared id has an entry with this id
      refine hsp.apart _ hmem c hc ?_
      have hlt := cleared_lt hs hsp hc
      obtain ⟨d, hd, heq⟩ := map_eq_some_iff.1 h
      rw [standsFor_ofNat hlt] at hd heq
      rw [findJobOrArray_fst] at hd
      rw [advance_jobId, ← (findJobRecord_eq_some hd).2]
      exact (congrArg DependSpec.jobId heq).symm
    · have hevolve := itemEntry_evolve hs.sound hsp.sound hsp.ids htask h ?_ ?_ ?_
      · rw [hevolve, advance_restored]
      · exact mem_append_right _ (mem_map.2 ⟨e, he, rfl⟩)
      · rw [advance_restored]
        exact live_of_keeps hkeeps htype'
      · intro harr
        have := hsp.arrays _ hmem (by rw [advance_arrayTaskId]; exact harr)
        rwa [advance_jobId] at this
  | delete => exact absurd hv (hsp.lifted e he)
  | clear =>
    have hmem := mem_cleared he hv
    refine .inr ⟨rfl, ?_⟩
    have hno := hsp.single _ hmem
    rw [advance_arrayTaskId] at hno
    have hid : itemId w = (advance r.jobs e).jobId := by
      rw [advance_jobId]
      exact (hnum hno htask).symm
    have hw' := hsp.numeral g hg w hw _ hmem hid
    rw [Bool.eq_false_iff]
    intro hall
    have hother := all_eq_true.1 hall _ hmem
    rw [isOther, decide_eq_true_eq] at hother
    exact hother hw'
  | fail => exact absurd hv hfail

/-- **The items that stay are read as the entries that are kept.** -/
theorem items_evolve (hg : g ∈ groups (s.textOf j)) (ht : t ≠ .singleton) {ws : List Text}
    (hws : ∀ w ∈ ws, w ∈ g.items ∧ itemTask w ≠ infinite16)
    (hl : ∀ e ∈ l, e ∈ s.entries j ∧ verdict r.jobs j (advance r.jobs e) ≠ .fail)
    (h : ws.filterMap (itemEntry s t) = l.map (restored s)) :
    (ws.filter (isKept (cleared r.jobs j (s.entries j)))).filterMap (itemEntry r.jobs t) =
      (kept r.jobs j l).map (restored r.jobs) := by
  induction ws generalizing l with
  | nil =>
    obtain rfl : l = [] := map_eq_nil_iff.1 h.symm
    rfl
  | cons w ws ih =>
    obtain ⟨hw, htask⟩ := hws w mem_cons_self
    have hws' := fun v hv => hws v (mem_cons_of_mem w hv)
    cases hitem : itemEntry s t w with
    | none =>
      -- the job was gone when the text was read, and still is
      rw [filterMap_cons_none hitem] at h
      have hnone : itemEntry r.jobs t w = none := by
        refine map_eq_none_iff.2 (standsFor_evolve_none hs.sound hsp.sound hsp.ids ?_ htask
          (map_eq_none_iff.1 hitem))
        exact mem_append_left _
          (mem_flatMap.2 ⟨g, hg, mem_map_of_mem hw⟩)
      rw [← ih hws' hl h, filter_cons]
      split_ifs
      · rw [filterMap_cons_none hnone]
      · rfl
    | some x =>
      rw [filterMap_cons_some hitem] at h
      obtain ⟨e, l, rfl, rfl, hrest⟩ := map_eq_cons_iff.1 h.symm
      obtain ⟨⟨he, hfail⟩, hl⟩ := forall_mem_cons.1 hl
      have hrest' := ih hws' hl hrest.symm
      rcases item_evolve hs hsp hg hw htask ht he hitem hfail with ⟨hkeeps, hstay, hread⟩ | ⟨hkeeps, hgoes⟩
      · have hk : kept r.jobs j (e :: l) = advance r.jobs e :: kept r.jobs j l :=
          filter_cons_of_pos hkeeps
        rw [filter_cons_of_pos hstay, filterMap_cons_some hread, hrest', hk, map_cons]
      · have hk : kept r.jobs j (e :: l) = kept r.jobs j l :=
          filter_cons_of_neg (by simp [hkeeps])
        rw [filter_cons_of_neg (by simp [hgoes]), hrest', hk]

theorem groupEntries_keep (hg : g ∈ groups (s.textOf j)) (htype : g.items ≠ [] → readType g.word ≠ none)
    (hl : ∀ e ∈ l, e ∈ s.entries j ∧ verdict r.jobs j (advance r.jobs e) ≠ .fail)
    (h : groupEntries s g = l.map (restored s)) :
    groupEntries r.jobs (g.keep (isKept (cleared r.jobs j (s.entries j)))) =
      (kept r.jobs j l).map (restored r.jobs) := by
  have hreg := hs.regular g hg
  unfold groupEntries at h ⊢
  unfold Group.Regular at hreg
  by_cases hitems : g.items = []
  · rw [if_pos hitems] at h
    rw [if_pos ((Group.keep_nil (hsp.filled g hg)).2 hitems)]
    obtain ⟨e, l, rfl, hsing, hnil⟩ := map_eq_cons_iff.1 h.symm
    obtain rfl : l = [] := map_eq_nil_iff.1 hnil
    have htask : e.arrayTaskId = 0 := congrArg DependSpec.arrayTaskId hsing
    have hsame : e = singletonSpec := by
      rw [← hsing, restored, restoredPtr, if_neg (by rw [htask]; decide)]
    have hadv : advance r.jobs e = e := by rw [advance, if_neg (by rw [htask]; decide)]
    have hkeeps : (verdict r.jobs j (advance r.jobs e)).keeps = true := by
      obtain ⟨he, hfail⟩ := hl e mem_cons_self
      cases hv : verdict r.jobs j (advance r.jobs e) with
      | keep _ _ => rfl
      | delete => exact absurd hv (hsp.lifted e he)
      | clear =>
        have hno := hsp.single _ (mem_cleared he hv)
        rw [advance_arrayTaskId, htask] at hno
        cases hno
      | fail => exact absurd hv hfail
    have hk : kept r.jobs j [e] = [advance r.jobs e] := filter_cons_of_pos hkeeps
    rw [hk, hadv, hsame]
    rfl
  · rw [if_neg hitems] at h hreg
    rw [if_neg (mt (Group.keep_nil (hsp.filled g hg)).1 hitems)]
    obtain ⟨t, ht⟩ := ne_none_iff_exists'.1 (htype hitems)
    have hword : (readType (g.keep (isKept (cleared r.jobs j (s.entries j)))).word).getD .after = t := by
      show (readType g.word).getD .after = t
      rw [ht]
      rfl
    rw [ht] at h
    rw [hword]
    exact items_evolve hs hsp hg (readType_ne_singleton ht) (fun w hw => ⟨hw, hreg.2 w hw⟩) hl h

omit hs hsp in
theorem kept_append (l l' : List DependSpec) : kept s j (l ++ l') = kept s j l ++ kept s j l' := by
  rw [kept, map_append, filter_append]
  rfl

theorem groupsEntries_keep {gs : List Group}
    (hgs : ∀ g ∈ gs, g ∈ groups (s.textOf j) ∧ (g.items ≠ [] → readType g.word ≠ none))
    (hl : ∀ e ∈ l, e ∈ s.entries j ∧ verdict r.jobs j (advance r.jobs e) ≠ .fail)
    (h : gs.flatMap (groupEntries s) = l.map (restored s)) :
    (gs.map (Group.keep (isKept (cleared r.jobs j (s.entries j))))).flatMap (groupEntries r.jobs) =
      (kept r.jobs j l).map (restored r.jobs) := by
  induction gs generalizing l with
  | nil =>
    obtain rfl : l = [] := map_eq_nil_iff.1 h.symm
    rfl
  | cons g gs ih =>
    rw [flatMap_cons] at h
    obtain ⟨l1, l2, rfl, h1, h2⟩ := map_eq_append_iff.1 h.symm
    obtain ⟨hg, htype⟩ := hgs g mem_cons_self
    rw [map_cons, flatMap_cons, kept_append, map_append]
    congr 1
    · exact groupEntries_keep hs hsp hg htype (fun e he => hl e (mem_append_left _ he)) h1.symm
    · exact ih (forall_mem_cons.1 hgs).2 (fun e he => hl e (mem_append_right _ he)) h2.symm

theorem itemFor_cleared (hc : c ∈ cleared r.jobs j (s.entries j)) (hg : g ∈ groups (s.textOf j))
    (hw : w ∈ g.items) : ItemFor c.jobId w where
  neat := (neat_of_mem_groups hg).2 w hw
  read := by
    obtain ⟨q, hq⟩ := hs.reads
    obtain ⟨t, -, hread⟩ := readGroups_mem hq g hg (ne_nil_of_mem hw)
    exact (hread w hw).1
  apart := by
    rintro v rfl hv
    have hid := itemId_ofNat_append (cleared_lt hs hsp hc) hv
    exact append_right_eq_self.1 (hsp.numeral g hg _ hw c hc hid)

omit hs hsp

/-- **One test keeps the text and the list together.** -/
theorem synced_test {now : Nat} {a : Answer} (hs : Synced expandAllow j s)
    (hsp : Spares j s ⟨s', now⟩) (hown : s'.job j = s.job j) {s'' : Jobs}
    (htest : testJobDependency s' j now = some (s'', a)) (ha : a ≠ .failure)
    (hleft : kept s' j (s.entries j) ≠ []) : Synced expandAllow j s'' := by
  obtain ⟨details, hd, htext, hlist⟩ := hs.stored
  obtain ⟨hfail, timeLimit, shared, rfl⟩ :=
    testJobDependency_eq (hown ▸ hd) hlist htest ha
  rw [if_neg hleft, htext]
  obtain ⟨q, hq⟩ := hs.reads
  have hgroups := readGroups_mem hq
  -- the groups that are left
  let gs := (groups (s.textOf j)).map (Group.keep (isKept (cleared s' j (s.entries j))))
  have hne : gs ≠ [] := by simpa [gs] using groups_ne_nil (s.textOf j)
  have hneat : ∀ g ∈ gs, g.Neat := by
    intro g hg
    obtain ⟨g', hg', rfl⟩ := mem_map.1 hg
    exact (neat_of_mem_groups hg').keep _
  have hcut : (cleared s' j (s.entries j)).foldl (fun text e => text.map (rmDependency · e))
      (some (s.textOf j)) = some (ungroup gs) := by
    have h := foldl_rmDependency hsp.single (fun g hg => neat_of_mem_groups hg)
      (fun c hc g hg w hw => itemFor_cleared hs hsp hc hg hw) hsp.filled
    rwa [ungroup_groups] at h
  rw [hcut]
  generalize hnew : s'.setJob j _ = s''
  have hs'' : s''.erase = s'.erase := by rw [← hnew]; exact erase_setJob rfl
  refine synced_of_stored hs'' hsp.sound (by rw [← hnew, Jobs.setJob_job]) rfl rfl hne hneat ?_ ?_ ?_
  · intro g hg
    obtain ⟨g', hg', rfl⟩ := mem_map.1 hg
    exact (hs.regular g' hg').keep (hsp.filled g' hg')
  · have hid : (s''.job j).jobId = (s.job j).jobId := by
      rw [jobId_congr hs'', hown]
    refine readGroups_keep hid hq hsp.filled ?_ (by simp [Parse.start])
    intro g hg htype w hw hf
    exact (expandable_congr hs'').2 (hsp.expands g hg htype w hw hf)
  · have htypes : ∀ g ∈ groups (s.textOf j), g ∈ groups (s.textOf j) ∧ (g.items ≠ [] → readType g.word ≠ none) := by
      intro g hg
      refine ⟨hg, fun hi => ?_⟩
      obtain ⟨t, ht, -⟩ := hgroups g hg hi
      rw [ht]
      exact some_ne_none t
    exact groupsEntries_keep hs hsp htypes (fun e he => ⟨he, hfail e he⟩) hs.entries

/-- The text and the list stay together, or nothing is left in the list. -/
def SyncedOrEmpty (expandAllow : Bool) (j : Nat) (s : Jobs) : Prop :=
  (∃ details, (s.job j).details = some details ∧
    (details.dependList = none ∨ details.dependList = some [])) ∨ Synced expandAllow j s

/-- The round spares the text, or nothing is left to wait for after it. -/
def SparesOrEnds (j : Nat) (s : Jobs) (r : Round) : Prop :=
  kept r.jobs j (s.entries j) = [] ∨ Spares j s r

theorem syncedOrEmpty_step (hs : SyncedOrEmpty expandAllow j s) (hsp : SparesOrEnds j s r)
    (hstep : (tests j).step s r = some s') : SyncedOrEmpty expandAllow j s' := by
  obtain ⟨hown, hstep⟩ := ite_none_right_eq_some.1 hstep
  obtain ⟨⟨s'', a⟩, htest, hstep⟩ := bind_eq_some_iff.1 hstep
  obtain ⟨ha, hstep⟩ := ite_none_left_eq_some.1 hstep
  cases hstep
  rcases hs with ⟨details, hd, hlist⟩ | hs
  · rw [← hown] at hd
    rcases hlist with hlist | hlist
    · -- no list: nothing is tested
      rw [testJobDependency, hd] at htest
      simp only [hlist] at htest
      cases htest
      exact .inl ⟨details, hd, .inl hlist⟩
    · obtain ⟨-, _, _, rfl⟩ := testJobDependency_eq hd hlist htest ha
      exact .inl ⟨_, by rw [Jobs.setJob_job], .inr rfl⟩
  · by_cases hleft : kept r.jobs j (s.entries j) = []
    · obtain ⟨details, hd, -, hlist⟩ := hs.stored
      obtain ⟨-, _, _, rfl⟩ := testJobDependency_eq (hown ▸ hd) hlist htest ha
      exact .inl ⟨_, by rw [Jobs.setJob_job], .inr (by simp only [hleft])⟩
    · rcases hsp with hnone | hsp
      · exact absurd hnone hleft
      · exact .inr (synced_test hs hsp hown htest ha hleft)

end Round

/-! ## The text that is given -/

/-- A text in the new format, or the plain id of a single job. -/
def NewFormat (s : Jobs) (text : Text) : Prop :=
  (∀ g ∈ groups text, g.Regular) ∨ ∃ n d, n < 2 ^ 32 ∧ text = ofNat n ∧ s.findJobOrArray n = (some d, noVal16)

theorem not_clears_of_regular {text : Text} (h : ∀ g ∈ groups text, g.Regular) : clears (some text) = false := by
  refine decide_eq_false ?_
  rintro (rfl | rfl)
  · have := h ⟨[], []⟩ (by decide)
    cases this
  · have := h ⟨['0'], []⟩ (by decide)
    cases this

theorem updateJobDependency_success {text : Text} {s1 : Jobs}
    (h : updateJobDependency s j expandAllow max (some text) = (s1, .success)) :
    ∃ details, (s.job j).details = some details ∧
      ((clears (some text) = true ∧ s1 = s.setJob j { s.job j with details := some { details with
          dependency := none, dependList := none, expandingJobid := 0 } }) ∨
        ∃ p stored, parseDepend s j expandAllow text = (p, some stored) ∧
          s1 = s.setJob j { s.job j with gres := p.gres, details := some { details with
            dependency := some stored, dependList := some p.list,
            expandingJobid := p.expandingJobid } }) := by
  revert h
  fun_cases updateJobDependency with
  | case1 | case3 | case4 => rintro ⟨⟩
  | case2 details hd hclear =>
    rintro ⟨⟩
    exact ⟨details, hd, .inl ⟨hclear, rfl⟩⟩
  | case5 details hd hclear p r stored hfound hparse =>
    rintro ⟨⟩
    exact ⟨details, hd, .inr ⟨p, stored, hparse, rfl⟩⟩

theorem readGroups_again {q : Parse} (he : s'.erase = s.erase)
    (h : readGroups s j expandAllow gs (.start s j) = some q) :
    ∃ q', readGroups s' j expandAllow gs (.start s' j) = some q' := by
  have hx : ∀ g ∈ gs, readType g.word = some .expand → ∀ w ∈ g.items, true = true → Expandable s' j w := by
    intro g hg htype w hw _
    obtain ⟨t, ht, hread⟩ := readGroups_mem h g hg (ne_nil_of_mem hw)
    rw [htype] at ht
    exact (expandable_congr he).2 ((hread w hw).2 (some.inj ht).symm)
  obtain ⟨q', hq'⟩ := @readGroups_keep gs s j expandAllow _ q (.start s' j) s' (jobId_congr he j)
    (fun _ => true) h (fun g _ hi => (exists_mem_of_ne_nil _ hi).imp fun w hw => ⟨hw, rfl⟩) hx
    (by simp [Parse.start])
  exact ⟨q', map_keep_true gs ▸ hq'⟩

theorem synced_of_reads {details : Details} {p q : Parse} (hs : s.Sound)
    (hne : gs ≠ []) (hn : ∀ g ∈ gs, g.Neat) (hreg : ∀ g ∈ gs, g.Regular)
    (hread : readGroups s j expandAllow gs (.start s j) = some q) (hlist : p.list = gs.flatMap (groupEntries s)) :
    Synced expandAllow j (s.setJob j { s.job j with gres := p.gres, details := some { details with
      dependency := some (ungroup gs), dependList := some p.list,
      expandingJobid := p.expandingJobid } }) := by
  generalize hnew : s.setJob j _ = s1
  have hs1 : s1.erase = s.erase := by rw [← hnew]; exact erase_setJob rfl
  refine synced_of_stored hs1 hs (by rw [← hnew, Jobs.setJob_job]) rfl rfl hne hn hreg (readGroups_again hs1 hread) ?_
  · rw [hlist]
    -- what was just read needs no restoring
    have hsame : ∀ x ∈ gs.flatMap (groupEntries s), restored s x = x := by
      intro x hx
      obtain ⟨g, hg, hx⟩ := mem_flatMap.1 hx
      have hr := hreg g hg
      unfold groupEntries at hx
      unfold Group.Regular at hr
      split_ifs at hx hr with hitems
      · rw [mem_singleton.1 hx]
        rfl
      · obtain ⟨w, hw, hitem⟩ := mem_filterMap.1 hx
        exact (itemEntry_eq_some hitem).2.2 (hr.2 w hw)
    exact ((map_congr_left hsame).trans (map_id _)).symm

theorem parseDepend_ofNat {n d : Nat} {p : Parse} {stored : Text} (hn : n < 2 ^ 32)
    (hjob : s.findJobOrArray n = (some d, noVal16)) (h : parseDepend s j expandAllow (ofNat n) = (p, some stored)) :
    n ≠ 0 ∧ n ≠ (s.job j).jobId ∧ p.list = [⟨noVal16, .afterAny, (s.job d).jobId, some d⟩] ∧
      stored = "afterany:".toList ++ ofNat n := by
  have hsing : hasWord "singleton".toList (ofNat n) = false := by
    refine decide_eq_false fun hw => ?_
    obtain ⟨c, u, hcu, hc⟩ := ofNat_eq_cons
    rw [hcu] at hw
    have hlow : c.toLower = 's' := some.inj (congrArg head? hw)
    unfold Char.toLower at hlow
    split_ifs at hlow with hupper
    · simp only [Char.isDigit, Bool.and_eq_true, decide_eq_true_eq, UInt32.le_iff_toNat_le] at hc
      have h1 : 'A'.val.toNat = 65 := rfl
      have h2 : '9'.val.toNat = 57 := rfl
      have h3 := UInt32.le_iff_toNat_le.1 hupper.1
      omega
    · rw [hlow] at hc
      cases hc
  have hcolon : (ofNat n).dropWhile (· ≠ ':') = [] := by
    rw [dropWhile_eq_nil_iff]
    intro c hc
    refine decide_eq_true ?_
    rintro rfl
    exact absurd (isDigit_of_mem_ofNat hc) (by decide)
  have hres : resolve s n noVal16 = (some d, noVal16) := by rw [resolve, if_pos rfl, hjob]
  rw [parseDepend, parseToks, parseTok, hsing, if_neg (by simp), hcolon] at h
  simp only [if_true, parseOld, strtol_ofNat hn, uint32_natCast hn, readTask, hres, ne_eq, not_true_eq_false, false_or] at h
  by_cases hbad : n = 0 ∨ n = (s.job j).jobId
  · rw [if_pos hbad] at h
    exact absurd (Prod.mk.inj h).2 (by simp)
  · rw [if_neg hbad] at h
    obtain ⟨rfl, hstored⟩ := Prod.mk.inj h
    refine ⟨fun h0 => hbad (.inl h0), fun hj => hbad (.inr hj), rfl, ?_⟩
    rw [← some.inj hstored]
    simp [show noVal16 ≠ infinite16 from by decide]

theorem synced_of_newFormat {text : Text} {s1 : Jobs} (hs : s.Sound) (hfmt : NewFormat s text)
    (h : updateJobDependency s j expandAllow max (some text) = (s1, .success)) : SyncedOrEmpty expandAllow j s1 := by
  obtain ⟨details, hd, ⟨-, rfl⟩ | ⟨p, stored, hp, rfl⟩⟩ := updateJobDependency_success h
  · exact .inl ⟨_, by rw [Jobs.setJob_job], .inl rfl⟩
  refine .inr ?_
  rcases hfmt with hreg | ⟨n, d, hn, rfl, hjob⟩
  · have hread := @parseDepend_ungroup _ s j expandAllow (groups_ne_nil text)
      (fun g hg => neat_of_mem_groups hg) hreg
    rw [ungroup_groups, hp] at hread
    obtain ⟨q, hq, heq⟩ := map_eq_some_iff.1 hread.symm
    obtain ⟨rfl, rfl⟩ : q = p ∧ text = stored := Prod.mk.inj heq
    have hlist := readGroups_list hq
    have hsync := @synced_of_reads s j expandAllow _ details q q hs (groups_ne_nil text)
      (fun g hg => neat_of_mem_groups hg) hreg hq hlist
    rwa [ungroup_groups] at hsync
  · -- the old format
    obtain ⟨hid, hplain⟩ : (s.job d).jobId = n ∧ ¬((s.job d).arrayJobId = n ∧ (s.job d).arrayTaskId ≠ noVal16) := by
      unfold Jobs.findJobOrArray at hjob
      cases hf : s.findJobRecord n with
      | none =>
        rw [hf] at hjob
        exact absurd (Prod.mk.inj hjob).1 (by simp)
      | some k =>
        simp only [hf] at hjob
        obtain ⟨hk, htask⟩ := Prod.mk.inj hjob
        cases hk
        refine ⟨(findJobRecord_eq_some hf).2, fun harr => ?_⟩
        rw [if_pos harr] at htask
        cases htask
    obtain ⟨hn0, hnj, hlist, htext⟩ := parseDepend_ofNat hn hjob hp
    let gs : List Group := [⟨"afterany".toList, [ofNat n]⟩]
    have hungroup : ungroup gs = "afterany:".toList ++ ofNat n := by
      simp [gs, ungroup_singleton, Group.text, colons]
    have hdigit : ∀ c, c.isDigit = false → c ∉ ofNat n := fun c hc hmem => by
      rw [isDigit_of_mem_ofNat hmem] at hc
      cases hc
    have hneat : ∀ g ∈ gs, g.Neat := by
      intro g hg
      obtain rfl := mem_singleton.1 hg
      refine ⟨⟨by simp, by simp⟩, fun w hw => ?_⟩
      obtain rfl := mem_singleton.1 hw
      exact ⟨hdigit _ (by decide), hdigit _ (by decide)⟩
    have hitem : itemId (ofNat n) = n ∧ itemTask (ofNat n) = noVal16 ∧ itemRest (ofNat n) = [] := by
      rw [itemId, itemTask, itemRest, strtol_ofNat hn, uint32_natCast hn]
      exact ⟨rfl, rfl, rfl⟩
    have hreg : ∀ g ∈ gs, g.Regular := by
      intro g hg
      obtain rfl := mem_singleton.1 hg
      have hword : hasWord "singleton".toList "afterany".toList = false := by decide
      refine ⟨hword, fun w hw => ?_⟩
      obtain rfl := mem_singleton.1 hw
      rw [hitem.2.1]
      decide
    have hentry : itemEntry s .afterAny (ofNat n) = some ⟨noVal16, .afterAny, (s.job d).jobId, some d⟩ := by
      rw [itemEntry, standsFor_ofNat hn, hjob]
      rfl
    have hlist' : p.list = gs.flatMap (groupEntries s) := by
      rw [hlist]
      show _ = [ofNat n].filterMap (itemEntry s .afterAny) ++ []
      rw [filterMap_cons_some hentry]
      rfl
    have hgs : ∃ q, readGroups s j expandAllow gs (.start s j) = some q := by
      show ∃ q, ([ofNat n].foldlM (readItem s j .afterAny) (.start s j)).bind some = some q
      rw [foldlM_cons, readItem, hitem.1, hitem.2.2, if_neg (by simp [hn0, hnj]), if_neg (by simp)]
      exact ⟨_, rfl⟩
    obtain ⟨q, hq⟩ := hgs
    have hsync := @synced_of_reads s j expandAllow _ details p q hs (by simp [gs]) hneat hreg hq hlist'
    rw [hungroup, ← htext] at hsync
    exact hsync

/-! ## The restart -/

/-- What `_restore_job_dependencies` does to a job. -/
def restoreJobDependency (s : Jobs) (j : Nat) (expandAllow : Bool) (maxDependDepth : Nat) : Jobs × Rc :=
  match (s.job j).details with
  | none => (s, .success)
  | some details =>
    match details.dependency with
    | none => (s, .success)
    | some newDepend =>
      updateJobDependency
        (s.setJob j { s.job j with details := some { details with dependency := none } })
        j expandAllow maxDependDepth (some newDepend)

/-- The type, the job and the task of an entry. -/
def DependSpec.key (e : DependSpec) : DependType × Nat × Nat :=
  (e.dependType, e.jobId, e.arrayTaskId)

theorem restore_of_synced (hs : Synced expandAllow j s)
    (hcirc : ¬s.Reaches (s.job j).jobId ((s.entries j).map (restored s))) :
    (restoreJobDependency s j expandAllow max).2 = .success ∧
      (restoreJobDependency s j expandAllow max).1.entries j = (s.entries j).map (restored s) := by
  obtain ⟨details, hd, htext, hlist⟩ := hs.stored
  rw [restoreJobDependency, hd]
  simp only [htext]
  generalize hnew : s.setJob j _ = s1
  have hs1 : s1.erase = s.erase := by rw [← hnew]; exact erase_setJob rfl
  have hd1 : (s1.job j).details = some { details with dependency := none } := by
    rw [← hnew, Jobs.setJob_job]
  -- the text is accepted
  obtain ⟨q, hq⟩ := hs.reads
  obtain ⟨q', hq'⟩ := readGroups_again hs1 hq
  have hread := @parseDepend_ungroup _ s1 j expandAllow (groups_ne_nil (s.textOf j))
    (fun g hg => neat_of_mem_groups hg) hs.regular
  rw [ungroup_groups, hq', map_some, outcome_eq_some] at hread
  have hlist' : q'.list = (s.entries j).map (restored s) := by
    rw [readGroups_list hq', funext (groupEntries_congr hs1), hs.entries]
    rfl
  -- and it is not circular
  have hscan : (scanDepend s1 max (s1.job j).jobId (max + 1) 0 q'.list).1 = false := by
    rw [jobId_congr hs1, hlist', ← hnew, scanDepend_setJob (by rfl)]
    exact Bool.eq_false_iff.2 fun hfound => hcirc (scanDepend_true _ _ _ hfound)
  rw [updateJobDependency, hd1]
  simp only [not_clears_of_regular hs.regular, Bool.false_eq_true, if_false, getD_some, hread, hscan]
  refine ⟨trivial, ?_⟩
  rw [Jobs.entries, Jobs.setJob_job, ← hlist']
  rfl

/-- **A restart preserves dependencies.**  A text in the new format was accepted, and then the
    dependencies were tested any number of times while the other jobs went on, each test sparing the
    text.  As long as there is an entry left, and the other jobs have not come to wait for this one,
    the text is accepted again and gives the entries that are left. -/
theorem restart_keeps (s₀ s₁ s : Jobs) (j : Nat) (expandAllow : Bool) (maxDependDepth : Nat)
    (text : Text) (hsound : s₀.Sound) (hfmt : NewFormat s₀ text)
    (hupdate : updateJobDependency s₀ j expandAllow maxDependDepth (some text) = (s₁, .success))
    (hrun : (tests j).Reach (SparesOrEnds j) s₁ s) (hleft : s.entries j ≠ [])
    (hcirc : ¬s.Reaches (s.job j).jobId ((s.entries j).map (restored s))) :
    (restoreJobDependency s j expandAllow maxDependDepth).2 = .success ∧
    ((restoreJobDependency s j expandAllow maxDependDepth).1.entries j).map DependSpec.key =
      (s.entries j).map DependSpec.key := by
  have hinv : SyncedOrEmpty expandAllow j s :=
    hrun.invariant (synced_of_newFormat hsound hfmt hupdate) fun _ _ _ hs hsp hstep =>
      syncedOrEmpty_step hs hsp hstep
  rcases hinv with ⟨details, hd, hlist⟩ | hs
  · refine absurd ?_ hleft
    rw [Jobs.entries, hd, bind_some]
    rcases hlist with hlist | hlist <;> rw [hlist] <;> rfl
  · obtain ⟨hrc, hentries⟩ := @restore_of_synced s j maxDependDepth expandAllow hs hcirc
    refine ⟨hrc, ?_⟩
    rw [hentries, List.map_map]
    rfl

theorem jobsBelow_sound {n : Nat} {job : Nat → JobRecord}
    (hids : ∀ k < n, ∀ m < n, (job k).jobId = (job m).jobId → k = m)
    (hnonzero : ∀ k < n, (job k).jobId ≠ 0) (htasks : ∀ k < n, (job k).arrayTaskId = noVal16) :
    (jobsBelow n job).Sound where
  magic k := by simp [jobsBelow]
  ids k hk m hm := hids k (mem_range.1 hk) m (mem_range.1 hm)
  nonzero k hk := hnonzero k (mem_range.1 hk)
  tasks k hk m hm _ _ hne := absurd (htasks k (mem_range.1 hk)) hne

def trioJob (state : JobState) (dependency : Option Text) (l : Option (List DependSpec)) :
    Nat → JobRecord
  | 0 => { pendingJob 10 0 noVal16 [] with details := some ⟨dependency, l, 0, 0⟩ }
  | 1 => { pendingJob 11 0 noVal16 [] with jobState := state }
  | k => pendingJob (k + 10) 0 noVal16 []

def trio (state : JobState) (dependency : Option Text) (l : Option (List DependSpec)) : Jobs :=
  jobsBelow 3 (trioJob state dependency l)

def twoLeft : Round where
  jobs := trio .complete (some "afterok:11:12".toList)
    (some [⟨noVal16, .afterOk, 11, some 1⟩, ⟨noVal16, .afterOk, 12, some 2⟩])
  now := 0

theorem restart_keeps_trio :
    ∃ s₁ s, updateJobDependency (trio .pending none none) 0 false 10
        (some "afterok:11:12".toList) = (s₁, .success) ∧
      (tests 0).Reach (SparesOrEnds 0) s₁ s ∧ s.textOf 0 = "afterok:12".toList ∧
      (restoreJobDependency s 0 false 10).2 = .success ∧
      ((restoreJobDependency s 0 false 10).1.entries 0).map DependSpec.key =
        [(.afterOk, 12, noVal16)] := by
  have hsound : (trio .pending none none).Sound :=
    jobsBelow_sound (by decide) (by decide) (by decide)
  have hround : twoLeft.jobs.Sound := jobsBelow_sound (by decide) (by decide) (by decide)
  let s₁ := (updateJobDependency (trio .pending none none) 0 false 10
    (some "afterok:11:12".toList)).1
  have hspares : SparesOrEnds 0 s₁ twoLeft :=
    .inr ⟨hround, by decide, by decide, by decide, by decide, by decide, by decide, by decide, by decide⟩
  have hreach : (tests 0).Reach (SparesOrEnds 0) s₁ _ := .step .start hspares rfl
  have hcirc : ∀ s : Jobs, (scanDepend s 10 (s.job 0).jobId 11 0
      ((s.entries 0).map (restored s))) = (false, 2) →
      ¬s.Reaches (s.job 0).jobId ((s.entries 0).map (restored s)) := by
    intro s hs hr
    have hfound := (scan_iff (by rw [hs]; decide)).2 hr
    rw [hs] at hfound
    cases hfound
  have h := restart_keeps _ s₁ _ 0 false 10 "afterok:11:12".toList hsound (.inl (by decide)) rfl
    hreach (by decide) (hcirc _ (by decide))
  refine ⟨s₁, _, rfl, hreach, by decide, h.1, ?_⟩
  rw [h.2]
  decide

/-- Job 10 waits for the jobs 11 and 12 in different ways, and job 11 has started. -/
def oneStarted : Round where
  jobs := trio .running (some "after:11,afterok:12".toList)
    (some [⟨noVal16, .after, 11, some 1⟩, ⟨noVal16, .afterOk, 12, some 2⟩])
  now := 0

/-- **A comma is left behind.**  The group `after:11` is emptied, its type is removed, and the text
    `,afterok:12` is refused: after a restart the job waits for nothing. -/
theorem emptied_group_refused :
    (updateJobDependency (trio .pending none none) 0 false 10
      (some "after:11,afterok:12".toList)).2 = .success ∧
    ((tests 0).step (updateJobDependency (trio .pending none none) 0 false 10
        (some "after:11,afterok:12".toList)).1 oneStarted).any (fun s =>
      s.entries 0 = [⟨noVal16, .afterOk, 12, some 2⟩] ∧ s.textOf 0 = ",afterok:12".toList ∧
        (restoreJobDependency s 0 false 10).2 = .dependency) = true := by
  decide

end Slurmpp.Depend
