/-
  What the items of a dependency text stand for, later: when an item that is looked up again is found to stand for
  the SAME job.

  1. **Frame** — a test changes only what reading does not look at (`erase`), and the scan for circles does not look
     at the list of the job it looks for (`scanDepend_setJob`).
  2. **Items** (`itemEntry_evolve`) — as long as named ids are not used again, an item whose entry is kept is read as
     that entry again, and one that stood for no job still does not.  For a whole array the job with its id must be
     there: `find_job_record` is asked for it.
-/
import Slurmpp.Depend.Circular
import Slurmpp.Depend.Cut

namespace Slurmpp.Depend

open Text List

variable {s s' : Jobs} {j max : Nat} {expandAllow : Bool} {t : DependType} {w : Text}
  {e : DependSpec}

/-! ## What reading does not look at -/

/-- A record without what a test or a restart changes. -/
def JobRecord.erase (r : JobRecord) : JobRecord :=
  { r with details := none, timeLimit := 0, gres := none }

def Jobs.erase (s : Jobs) : Jobs := ⟨s.jobList, fun k => (s.job k).erase⟩

theorem erase_setJob {r : JobRecord} (h : r.erase = (s.job j).erase) : (s.setJob j r).erase = s.erase := by
  unfold Jobs.erase
  congr 1
  funext k
  by_cases hk : k = j
  · subst hk
    rw [Jobs.setJob_job, h]
  · rw [Jobs.setJob_job_of_ne _ _ hk]

theorem groupEntries_congr (h : s.erase = s'.erase) (g : Group) : groupEntries s g = groupEntries s' g := by
  show groupEntries s.erase g = groupEntries s'.erase g
  rw [h]

theorem expandable_congr (h : s.erase = s'.erase) : Expandable s j w ↔ Expandable s' j w := by
  show Expandable s.erase j w ↔ Expandable s'.erase j w
  rw [h]

theorem jobId_congr (h : s.erase = s'.erase) (k : Nat) : (s.job k).jobId = (s'.job k).jobId := by
  show (s.erase.job k).jobId = (s'.erase.job k).jobId
  rw [h]

theorem scanDepend_setJob {r : JobRecord} (hid : r.jobId = (s.job j).jobId) (fuel : Nat) :
    ∀ c l, scanDepend (s.setJob j r) max (s.job j).jobId fuel c l = scanDepend s max (s.job j).jobId fuel c l := by
  have hnext : ∀ e : DependSpec, e.jobId ≠ (s.job j).jobId → (s.setJob j r).next e = s.next e := by
    intro e he
    unfold Jobs.next
    congr 1
    funext d
    by_cases hd : d = j
    · subst hd
      rw [Jobs.setJob_job, if_neg fun h => he (h.1.trans hid), if_neg fun h => he h.1]
    · have hsame := s.setJob_job_of_ne r hd
      have hunf : (s.setJob j r).Unfinished d ↔ s.Unfinished d := by
        rw [Jobs.Unfinished, hsame, Jobs.Unfinished]
      simp only [hsame, hunf]
  induction fuel with
  | zero => exact fun c l => rfl
  | succ fuel ih =>
    intro c l
    rw [scanDepend, scanDepend]
    split_ifs
    · rfl
    · have hscan : scanDepend (s.setJob j r) max (s.job j).jobId fuel =
          scanDepend s max (s.job j).jobId fuel := funext₂ ih
      rw [hscan]
      generalize c + 1 = c
      induction l generalizing c with
      | nil => rfl
      | cons e l ihl =>
        rw [scanEntries_cons, scanEntries_cons]
        by_cases h0 : e.jobId = 0
        · rw [if_pos h0, if_pos h0, ihl]
        · rw [if_neg h0, if_neg h0]
          by_cases hj : e.jobId = (s.job j).jobId
          · rw [if_pos hj, if_pos hj]
          · rw [if_neg hj, if_neg hj, hnext e hj]
            cases s.next e with
            | none => exact ihl c
            | some l' =>
              dsimp only
              rw [ihl]

/-! ## What an item stands for, later -/

/-- The records are in order: ids are unique, and so are the tasks of an array. -/
structure Jobs.Sound (s : Jobs) : Prop extends s.Wf where
  tasks : ∀ k ∈ s.jobList, ∀ m ∈ s.jobList, (s.job k).arrayJobId = (s.job m).arrayJobId →
    (s.job k).arrayTaskId = (s.job m).arrayTaskId → (s.job k).arrayTaskId ≠ noVal16 → k = m

theorem Jobs.Sound.congr (h : s.Sound) (he : s.erase = s'.erase) : s'.Sound := by
  have herase : s.erase.Sound := ⟨⟨h.magic, h.ids, h.nonzero⟩, h.tasks⟩
  rw [he] at herase
  exact ⟨⟨herase.magic, herase.ids, herase.nonzero⟩, herase.tasks⟩

/-- A job keeps its ids, and a new job has none of the given ids. -/
def KeepsIds (s s' : Jobs) (ids : List Nat) : Prop :=
  ∀ k ∈ s'.jobList,
    (k ∈ s.jobList ∧ (s'.job k).jobId = (s.job k).jobId ∧
      (s'.job k).arrayJobId = (s.job k).arrayJobId ∧
      (s'.job k).arrayTaskId = (s.job k).arrayTaskId) ∨
    (s'.job k).jobId ∉ ids ∧ (s'.job k).arrayJobId ∉ ids

instance (s s' : Jobs) (ids : List Nat) : Decidable (KeepsIds s s' ids) :=
  inferInstanceAs (Decidable (∀ k ∈ s'.jobList, _))

variable {n d : Nat}

theorem findJobRecord_eq_some (h : s.findJobRecord n = some d) : d ∈ s.jobList ∧ (s.job d).jobId = n :=
  ⟨mem_of_find?_eq_some h, by simpa using find?_some h⟩

theorem findJobOrArray_fst : (s.findJobOrArray n).1 = s.findJobRecord n := by
  rw [Jobs.findJobOrArray]
  cases s.findJobRecord n <;> rfl

theorem Jobs.Wf.findJobRecord_iff (hw : s.Wf) : s.findJobRecord n = some d ↔ d ∈ s.jobList ∧ (s.job d).jobId = n := by
  refine ⟨findJobRecord_eq_some, fun ⟨hd, hid⟩ => ?_⟩
  cases hf : s.findJobRecord n with
  | none => exact absurd (find?_eq_none.1 hf d hd) (by simpa using hid)
  | some k =>
    obtain ⟨hk, hkid⟩ := findJobRecord_eq_some hf
    rw [hw.ids k hk d hd (hkid.trans hid.symm)]

theorem Jobs.Sound.findJobArrayRec_iff (hs : s.Sound) {task : Nat} (h1 : task ≠ noVal16)
    (h2 : task ≠ infinite16) : s.findJobArrayRec n task = some d ↔
      d ∈ s.jobList ∧ (s.job d).arrayJobId = n ∧ (s.job d).arrayTaskId = task := by
  rw [Jobs.findJobArrayRec, if_neg h1]
  rw [if_neg h2]
  constructor
  · intro h
    have hmem := mem_filter.1 (mem_of_find?_eq_some h)
    exact ⟨hmem.1, by simpa using hmem.2, by simpa using find?_some h⟩
  · rintro ⟨hd, hn, ht⟩
    have hmem : d ∈ s.jobList.filter fun l => decide ((s.job l).arrayJobId = n) :=
      mem_filter.2 ⟨hd, by simpa using hn⟩
    cases hf : (s.jobList.filter fun l => decide ((s.job l).arrayJobId = n)).find?
        fun k => decide ((s.job k).arrayTaskId = task) with
    | none => exact absurd (find?_eq_none.1 hf d hmem) (by simpa using ht)
    | some k =>
      have hk := mem_filter.1 (mem_of_find?_eq_some hf)
      have hkn : (s.job k).arrayJobId = n := by simpa using hk.2
      have hkt : (s.job k).arrayTaskId = task := by simpa using find?_some hf
      rw [hs.tasks k hk.1 d hd (hkn.trans hn.symm) (hkt.trans ht.symm) (by rw [hkt]; exact h1)]

/-- The job that the item of an entry will be found to stand for. -/
def restoredPtr (s : Jobs) (e : DependSpec) : Option Nat :=
  if e.arrayTaskId = infinite16 then s.findJobRecord e.jobId else e.jobPtr

/-- The entry as it will be read from its item. -/
def restored (s : Jobs) (e : DependSpec) : DependSpec := { e with jobPtr := restoredPtr s e }

theorem restored_congr (h : s.erase = s'.erase) : restored s = restored s' := by
  funext e
  show restored s.erase e = restored s'.erase e
  rw [h]

theorem standsFor_evolve_none (hs : s.Sound) (hs' : s'.Sound) {ids : List Nat}
    (hids : KeepsIds s s' ids) (hw : itemId w ∈ ids) (ht : itemTask w ≠ infinite16)
    (h : (standsFor s w).1 = none) : (standsFor s' w).1 = none := by
  unfold standsFor resolve at h ⊢
  by_cases hno : itemTask w = noVal16
  · rw [if_pos hno, findJobOrArray_fst] at h ⊢
    cases hf' : s'.findJobRecord (itemId w) with
    | none => rfl
    | some k =>
      obtain ⟨hk, hid⟩ := findJobRecord_eq_some hf'
      rcases hids k hk with ⟨hold, hid', -⟩ | ⟨hnew, -⟩
      · rw [hs.findJobRecord_iff.2 ⟨hold, hid'.symm.trans hid⟩] at h
        cases h
      · exact absurd (hid ▸ hw) hnew
  · rw [if_neg hno] at h ⊢
    cases hf' : s'.findJobArrayRec (itemId w) (itemTask w) with
    | none => rfl
    | some k =>
      obtain ⟨hk, hid, htask⟩ := (hs'.findJobArrayRec_iff hno ht).1 hf'
      rcases hids k hk with ⟨hold, -, ha, htk⟩ | ⟨-, hnew⟩
      · have hf := (hs.findJobArrayRec_iff hno ht).2 ⟨hold, ha.symm.trans hid, htk.symm.trans htask⟩
        rw [show (s.findJobArrayRec (itemId w) (itemTask w), itemTask w).1 =
          s.findJobArrayRec (itemId w) (itemTask w) from rfl, hf] at h
        cases h
      · exact absurd (hid ▸ hw) hnew

theorem KeepsIds.live {ids : List Nat} (hids : KeepsIds s s' ids) (hs' : s'.Sound)
    (he : e.jobId ∈ ids) (hd : ¬isGone s' e d) : d ∈ s'.jobList ∧ d ∈ s.jobList ∧
      (s'.job d).jobId = (s.job d).jobId ∧ (s'.job d).arrayJobId = (s.job d).arrayJobId ∧
      (s'.job d).arrayTaskId = (s.job d).arrayTaskId := by
  rw [isGone, not_or, not_and_or, not_not, not_not] at hd
  have hmem : d ∈ s'.jobList := (hs'.magic d).1 (by simpa using hd.1)
  rcases hids d hmem with hold | ⟨h1, h2⟩
  · exact ⟨hmem, hold⟩
  · rcases hd.2 with hid | hid
    · exact absurd (hid ▸ he) h1
    · exact absurd (hid ▸ he) h2

/-- **An item whose entry is kept is read as that entry again.** -/
theorem itemEntry_evolve (hs : s.Sound) (hs' : s'.Sound) {ids : List Nat}
    (hids : KeepsIds s s' ids) (ht : itemTask w ≠ infinite16) (h : itemEntry s t w = some e) (he : e.jobId ∈ ids)
    (hlive : ∃ d, (advance s' e).jobPtr = some d ∧ ¬isGone s' (advance s' e) d)
    (harray : e.arrayTaskId = infinite16 → s'.findJobRecord e.jobId ≠ none) :
    itemEntry s' t w = some (restored s' (advance s' e)) := by
  obtain ⟨d0, hd0, rfl⟩ := Option.map_eq_some_iff.1 h
  unfold itemEntry standsFor resolve at *
  by_cases hno : itemTask w = noVal16
  · simp only [if_pos hno] at hd0 hlive harray he ⊢
    unfold Jobs.findJobOrArray at hd0 hlive harray ⊢
    cases hf : s.findJobRecord (itemId w) with
    | none =>
      rw [hf] at hd0
      cases hd0
    | some d =>
      simp only [hf] at hd0 hlive harray he ⊢
      obtain rfl : d = d0 := Option.some.inj hd0
      obtain ⟨hd, hid⟩ := findJobRecord_eq_some hf
      by_cases harr : (s.job d).arrayJobId = itemId w ∧ (s.job d).arrayTaskId ≠ noVal16
      · -- a whole array: the job with its id is still the same
        simp only [if_pos harr] at hlive harray ⊢
        obtain ⟨k, hk⟩ := Option.ne_none_iff_exists'.1 (harray trivial)
        obtain ⟨hkl, hkid⟩ := findJobRecord_eq_some hk
        rcases hids k hkl with ⟨hold, hid', ha, htk⟩ | ⟨hnew, -⟩
        · obtain rfl : k = d := hs.ids k hold d hd (hid'.symm.trans hkid)
          have hf' : s'.findJobRecord (itemId w) = some k := by rw [← hid]; exact hk
          simp only [hf', Option.map_some, ha, htk, if_pos harr, restored, restoredPtr, advance, if_true, hid', hk]
        · exact absurd (hkid ▸ he) hnew
      · -- a single job
        simp only [if_neg harr] at hlive harray ⊢
        have hadv : ∀ x : DependSpec, x.arrayTaskId = noVal16 → advance s' x = x := by
          intro x hx
          rw [advance, if_neg (by rw [hx]; decide)]
        rw [hadv _ rfl] at hlive ⊢
        obtain ⟨d', hd', hgone⟩ := hlive
        cases hd'
        obtain ⟨hd'l, -, hid', ha, htk⟩ := hids.live hs' he hgone
        have hf' := hs'.findJobRecord_iff.2 ⟨hd'l, hid'.trans hid⟩
        simp only [hf', Option.map_some, ha, htk, if_neg harr, restored, restoredPtr, hid',
          show noVal16 ≠ infinite16 from by decide, if_false]
  · -- a task
    simp only [if_neg hno] at hd0 hlive harray he ⊢
    have hadv : ∀ x : DependSpec, x.arrayTaskId = itemTask w → advance s' x = x := by
      intro x hx
      rw [advance, if_neg (by rw [hx]; exact ht)]
    rw [hadv _ rfl] at hlive ⊢
    obtain ⟨d', hd', hgone⟩ := hlive
    cases hd'
    obtain ⟨-, hn, htask⟩ := (hs.findJobArrayRec_iff hno ht).1 hd0
    obtain ⟨hd'l, -, hid', ha, htk⟩ := hids.live hs' he hgone
    have hf' := (hs'.findJobArrayRec_iff hno ht).2 ⟨hd'l, ha.trans hn, htk.trans htask⟩
    simp only [hf', Option.map_some, restored, restoredPtr, hid', ht, if_false]

/-! ## Numerals -/

theorem uint32_lt (n : Int) : uint32 n < 2 ^ 32 := by
  have := Int.emod_lt_of_pos n (show (0 : Int) < 2 ^ 32 by decide)
  unfold uint32
  omega

section

variable (hn : n < 2 ^ 32)
include hn

theorem strtol_ofNat_append {v : Text} (hv : NoDigitFirst v) : strtol (ofNat n ++ v) = ((n : Int), v) := by
  obtain ⟨c, u, hcu, hc⟩ := ofNat_eq_cons
  obtain ⟨hsp, hm, hp⟩ := plain_of_isDigit hc
  have hskip : (ofNat n ++ v).dropWhile isSpace = ofNat n ++ v := by
    rw [hcu, cons_append, dropWhile_cons, hsp]
    rfl
  have hhead : (ofNat n ++ v).head? = some c := by
    rw [hcu]
    rfl
  have hnum : leadingNat (ofNat n ++ v) = n := by
    rw [leadingNat, takeWhile_isDigit_ofNat_append hv, ofNat, Nat.ofDigitChars_ten_toDigits]
  rw [strtol_eq]
  dsimp only
  rw [hskip, hhead]
  simp only [Option.some.injEq, hm, hp, or_self, if_false]
  rw [takeWhile_isDigit_ofNat_append hv, if_neg (ofNat_ne_nil n), hnum, dropWhile_isDigit_ofNat_append hv]
  refine Prod.ext ?_ rfl
  omega

theorem strtol_ofNat : strtol (ofNat n) = ((n : Int), []) := by
  have h := strtol_ofNat_append (v := []) hn (by simp [NoDigitFirst])
  rwa [append_nil] at h

theorem uint32_natCast : uint32 n = n := by
  unfold uint32
  omega

theorem itemId_ofNat_append {v : Text} (hv : NoDigitFirst v) : itemId (ofNat n ++ v) = n := by
  rw [itemId, strtol_ofNat_append hn hv, uint32_natCast hn]

theorem standsFor_ofNat : standsFor s (ofNat n) = s.findJobOrArray n := by
  rw [standsFor, itemId, itemTask, strtol_ofNat hn, uint32_natCast hn]
  rfl

end

/-! ## Entries and their items -/

theorem readType_ne_singleton {word : Text} (h : readType word = some t) : t ≠ .singleton := by
  rintro rfl
  unfold readType at h
  split_ifs at h <;> exact absurd h (by decide)

@[simp]
theorem advance_arrayTaskId : (advance s e).arrayTaskId = e.arrayTaskId := by
  unfold advance
  split_ifs <;> rfl

@[simp]
theorem advance_dependType : (advance s e).dependType = e.dependType := by
  unfold advance
  split_ifs <;> rfl

@[simp]
theorem advance_jobId : (advance s e).jobId = e.jobId := by
  unfold advance
  split_ifs <;> rfl

theorem advance_restored : advance s' (restored s e) = advance s' e := by
  unfold advance restored restoredPtr
  split_ifs <;> rfl

theorem itemEntry_eq_some (h : itemEntry s t w = some e) : e.dependType = t ∧
    (e.arrayTaskId = noVal16 → itemTask w ≠ infinite16 → e.jobId = itemId w) ∧
    (itemTask w ≠ infinite16 → restored s e = e) := by
  obtain ⟨d, hd, rfl⟩ := Option.map_eq_some_iff.1 h
  refine ⟨rfl, fun hno _ => ?_, fun ht => ?_⟩
  · unfold standsFor resolve at hd hno
    by_cases htask : itemTask w = noVal16
    · rw [if_pos htask, findJobOrArray_fst] at hd
      exact (findJobRecord_eq_some hd).2
    · simp only [if_neg htask] at hno
      exact absurd hno htask
  · unfold standsFor resolve at hd ⊢
    by_cases htask : itemTask w = noVal16
    · rw [if_pos htask, findJobOrArray_fst] at hd
      have hid := (findJobRecord_eq_some hd).2
      simp only [restored, restoredPtr, hid, hd]
      split_ifs <;> rfl
    · simp only [if_neg htask, restored, restoredPtr, if_neg ht]

theorem live_of_keeps (h : (verdict s j e).keeps = true) (ht : e.dependType ≠ .singleton) :
    ∃ d, e.jobPtr = some d ∧ ¬isGone s e d := by
  unfold verdict at h
  split at h
  · rename_i hs _
    exact absurd hs ht
  · split at h
    · simp [Verdict.keeps] at h
    · rename_i d hptr
      split_ifs at h with hgone
      · simp [Verdict.keeps] at h
      · exact ⟨d, hptr, hgone⟩

end Slurmpp.Depend
