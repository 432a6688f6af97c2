/-
  Job dependencies: how they are tested and cleared.  For each entry `test_job_dependency` has a `Verdict`:

  * keep    — the job goes on waiting, or is expanding a running one;
  * delete  — a singleton may run; the entry goes from the LIST only;
  * clear   — the entry goes from the list, and `_rm_dependency` cuts its id out of the TEXT;
  * fail    — the loop is left at once, with the entries behind it unvisited.

  A text with a position is the text BEFORE it and the REST.  The text may be NULL while the list is not empty, and
  `strstr` on it is a fault: `none`.
-/
import Slurmpp.Depend.Update

namespace Slurmpp.Depend

open Text List Option

/-! ## Cutting an id out of the text -/

/-- `strstr (text, key)`: what comes before the first occurrence, and what comes after it. -/
def strstr (key : Text) : Text → Option (Text × Text)
  | [] => if key = [] then some ([], []) else none
  | c :: text =>
    if key.isPrefixOf (c :: text) then some ([], (c :: text).drop key.length)
    else (strstr key text).map fun (skip, after) => (c :: skip, after)

/-- `rmv_dep`: what stands in the text for an entry. -/
def rmvDep (e : DependSpec) : Text :=
  ':' :: (ofNat e.jobId ++
    if e.arrayTaskId = infinite16 then "_*".toList
    else if e.arrayTaskId ≠ noVal16 then '_' :: ofNat e.arrayTaskId
    else [])

/-- The text without the letters at its end.  The loop does not look at the first character. -/
def dropType : Text → Text
  | [] => []
  | c :: text => if text.rdropWhile Char.isAlpha = [] then [] else c :: text.rdropWhile Char.isAlpha

/-- The loop of `_rm_dependency`, from the position between `pre` and `rest` on. -/
def rmLoop (key : Text) : Nat → Text → Text → Text
  | 0, pre, rest => pre ++ rest
  | fuel + 1, pre, rest =>
    match strstr key rest with
    | none => pre ++ rest
    | some (skip, after) =>
      if after.head?.any Char.isDigit then
        -- the beginning of another id: the position moves on, but not to the end of the match
        rmLoop key fuel (pre ++ rest.take key.length) (rest.drop key.length)
      else if after.head? = some ':' ∨ (pre ++ skip).getLast?.any Char.isAlpha = false then
        rmLoop key fuel pre (skip ++ after)
      else
        rmLoop key fuel (dropType (pre ++ skip)) after

def rmDependency (text : Text) (e : DependSpec) : Text :=
  rmLoop (rmvDep e) (text.length + 1) [] text

theorem strstr_eq_some {key text skip after : Text} (h : strstr key text = some (skip, after)) :
    text = skip ++ (key ++ after) ∧ ∀ a b, skip = a ++ b → b ≠ [] → ¬key <+: b ++ (key ++ after) := by
  fun_induction strstr generalizing skip with
  | case1 hkey =>
    cases h
    subst hkey
    refine ⟨rfl, fun a b hab hb => ?_⟩
    exact absurd (append_eq_nil_iff.1 hab.symm).2 hb
  | case2 => cases h
  | case3 c text hpre =>
    cases h
    obtain ⟨after, hafter⟩ := isPrefixOf_iff_prefix.1 hpre
    rw [← hafter, drop_left]
    refine ⟨rfl, fun a b hab hb => ?_⟩
    exact absurd (append_eq_nil_iff.1 hab.symm).2 hb
  | case4 c text hpre ih =>
    obtain ⟨⟨skip', after'⟩, h', heq⟩ := map_eq_some_iff.1 h
    cases heq
    obtain ⟨rfl, hno⟩ := ih h'
    refine ⟨rfl, fun a b hab hb => ?_⟩
    cases a with
    | nil =>
      obtain rfl : c :: skip' = b := hab
      intro hp
      exact hpre (List.isPrefixOf_iff_prefix.2 hp)
    | cons c' a => exact hno a b (cons.inj hab).2 hb

theorem strstr_eq_none {key text : Text} (h : strstr key text = none) :
    ∀ a b, text = a ++ b → b ≠ [] → ¬key <+: b := by
  fun_induction strstr with
  | case1 | case3 => cases h
  | case2 =>
    intro a b hab hb
    exact absurd (append_eq_nil_iff.1 hab.symm).2 hb
  | case4 c text hpre ih =>
    intro a b hab hb
    cases a with
    | nil =>
      obtain rfl : c :: text = b := hab
      intro hp
      exact hpre (List.isPrefixOf_iff_prefix.2 hp)
    | cons c' a => exact ih (map_eq_none_iff.1 h) a b (cons.inj hab).2 hb

theorem rmLoop_fuel {key : Text} (hkey : key ≠ []) {fuel fuel' : Nat} {pre rest : Text}
    (h : rest.length < fuel) (h' : rest.length < fuel') : rmLoop key fuel pre rest = rmLoop key fuel' pre rest := by
  have hpos : 0 < key.length := length_pos_iff.2 hkey
  induction fuel generalizing fuel' pre rest with
  | zero => exact absurd h (Nat.not_lt_zero _)
  | succ fuel ih =>
    obtain ⟨fuel', rfl⟩ : ∃ n, fuel' = n + 1 := ⟨fuel' - 1, by omega⟩
    rw [rmLoop, rmLoop]
    cases hs : strstr key rest with
    | none => rfl
    | some r =>
      obtain ⟨skip, after⟩ := r
      have hlen : rest.length = skip.length + (key.length + after.length) := by
        conv_lhs => rw [(strstr_eq_some hs).1]
        simp
      dsimp only
      split_ifs
      · exact ih (by rw [length_drop]; omega) (by rw [length_drop]; omega)
      · exact ih (by rw [length_append]; omega) (by rw [length_append]; omega)
      · exact ih (by omega) (by omega)

/-! ## Testing -/

inductive Verdict
  | keep (depends failure : Bool)
  | delete
  | clear
  | fail
deriving DecidableEq, Repr

variable (s : Jobs) (j : Nat)

/-- `_build_user_job_list`, for a name that is not NULL. -/
def buildUserJobList (userId : Nat) (name : Text) : List Nat :=
  s.jobList.filter fun k => decide ((s.job k).userId = userId) && (s.job k).name.all (· = name)

/-- `run_now`: no job of the user with this name is active or was there before. -/
def runNow (name : Text) : Bool :=
  (buildUserJobList s (s.job j).userId name).all fun q =>
    !((s.job q).jobState = .running || (s.job q).jobState = .suspended ||
      (s.job q).jobState = .pending && (s.job q).jobId < (s.job j).jobId)

def isGone (e : DependSpec) (d : Nat) : Prop :=
  (s.job d).magic = false ∨ (s.job d).jobId ≠ e.jobId ∧ (s.job d).arrayJobId ≠ e.jobId

instance (e : DependSpec) (d : Nat) : Decidable (isGone s e d) := inferInstanceAs (Decidable (_ ∨ _))

/-- The tests on an entry whose job is there. -/
def verdictOn (t : DependType) (state : JobState) : Verdict :=
  match t with
  | .after => if state ≠ .pending then .clear else .keep true false
  | .afterAny => if state.isFinished then .clear else .keep true false
  | .afterNotOk =>
    if state.isFinished = false then .keep true false
    else if state ≠ .complete then .clear else .fail
  | .afterOk =>
    if state.isFinished = false then .keep true false
    else if state = .complete then .clear else .fail
  | .expand =>
    if state = .pending then .keep true false
    else if state.isFinished then .fail else .keep false false
  | .singleton => .keep false true

def verdict (e : DependSpec) : Verdict :=
  match e.dependType, (s.job j).name with
  | .singleton, some name => if runNow s j name then .delete else .keep true false
  | t, _ =>
    match e.jobPtr with
    | none => .clear
    | some d => if isGone s e d then .clear else verdictOn t (s.job d).jobState

/-- An entry for a whole array is advanced to the latest element of it. -/
def advance (e : DependSpec) : DependSpec :=
  if e.arrayTaskId = infinite16 then { e with jobPtr := s.findJobArrayRec e.jobId infinite16 } else e

/-- The variables of `test_job_dependency`, and the fields of the job that it sets. -/
structure Test where
  dependency : Option Text
  timeLimit : Nat
  shared : Nat
  failure : Bool
  depends : Bool
  expands : Bool
  count : Nat
deriving DecidableEq, Repr

variable (now : Nat)

/-- The job takes over the time limit and the sharing of the one it expands. -/
def expandFrom (e : DependSpec) (t : Test) : Test :=
  match e.jobPtr with
  | none => t
  | some d =>
    { t with
      timeLimit :=
        if (s.job d).jobState ≠ .pending ∧ (s.job d).endTime ≠ 0 ∧ now < (s.job d).endTime then
          ((s.job d).endTime - now) % 2 ^ 32 / 60
        else t.timeLimit
      shared :=
        if d = j then t.shared
        else match (s.job d).details with
          | some details => details.shared
          | none => t.shared }

/-- The loop of `test_job_dependency`, and the list it leaves. -/
def testEntries : List DependSpec → Test → Option (Test × List DependSpec)
  | [], t => some (t, [])
  | e :: l, t =>
    let e := advance s e
    let t := { t with count := t.count - 1 }
    match verdict s j e with
    | .keep depends failure =>
      let t := if e.dependType = .expand then expandFrom s j now e { t with expands := true } else t
      (testEntries l { t with
        depends := t.depends || depends, failure := t.failure || failure }).map
        fun (t, l) => (t, e :: l)
    | .delete => testEntries l t
    | .clear =>
      match t.dependency with
      | none => none
      | some text => testEntries l { t with dependency := some (rmDependency text e) }
    | .fail =>
      some ({ t with failure := true, expands := t.expands || e.dependType = .expand }, e :: l)

inductive Answer
  | noDependency
  | remain
  | failure
deriving DecidableEq, Repr

def testJobDependency : Option (Jobs × Answer) :=
  match (s.job j).details with
  | none => some (s, .noDependency)
  | some details =>
    match details.dependList with
    | none => some (s, .noDependency)
    | some l =>
      (testEntries s j now l ⟨details.dependency, (s.job j).timeLimit, details.shared, false, false,
        false, l.length⟩).map fun (t, l) =>
        (s.setJob j { s.job j with
          timeLimit := t.timeLimit
          details := some { details with
            dependency :=
              if t.depends = false ∧ t.expands = false ∧ t.count = 0 then none else t.dependency
            dependList := some l
            shared := t.shared } },
          if t.failure then .failure else if t.depends then .remain else .noDependency)

/-! ## What the loop does to the list and to the text -/

variable {s j now}

def Verdict.keeps : Verdict → Bool
  | .keep _ _ => true
  | _ => false

/-- The entries that are kept, advanced. -/
def kept (s : Jobs) (j : Nat) (l : List DependSpec) : List DependSpec :=
  (l.map (advance s)).filter fun e => (verdict s j e).keeps

/-- The entries that are cleared, advanced. -/
def cleared (s : Jobs) (j : Nat) (l : List DependSpec) : List DependSpec :=
  (l.map (advance s)).filter fun e => verdict s j e = .clear

@[simp]
theorem expandFrom_same (e : DependSpec) (t : Test) :
    (expandFrom s j now e t).dependency = t.dependency ∧ (expandFrom s j now e t).failure = t.failure ∧
    (expandFrom s j now e t).depends = t.depends ∧ (expandFrom s j now e t).expands = t.expands ∧
    (expandFrom s j now e t).count = t.count := by
  unfold expandFrom
  split <;> exact ⟨rfl, rfl, rfl, rfl, rfl⟩

theorem verdict_keep {e : DependSpec} {depends failure : Bool} (h : verdict s j e = .keep depends failure) :
    depends = true ∨ e.dependType = .expand ∨ failure = true := by
  unfold verdict at h
  split at h
  · split_ifs at h
    obtain ⟨rfl, -⟩ := Verdict.keep.inj h
    exact .inl rfl
  · split at h
    · cases h
    · split_ifs at h
      unfold verdictOn at h
      split at h
      all_goals first | split_ifs at h | skip
      all_goals first | exact .inr (.inl ‹_›) | (obtain ⟨rfl, rfl⟩ := Verdict.keep.inj h; simp)

variable {l l' : List DependSpec} {t t' : Test}

/-- **What the loop leaves** if it does not fail, which no entry made it do: the entries that are kept, and
    the text without those that are cleared.  It has waited for something, or expands something, if an entry is
    left. -/
theorem testEntries_eq (h : testEntries s j now l t = some (t', l')) (hf : t'.failure = false)
    (hcount : t.count = l.length) :
    (∀ e ∈ l, verdict s j (advance s e) ≠ .fail) ∧ l' = kept s j l ∧ t.failure = false ∧ t'.count = 0 ∧
    t'.dependency = (cleared s j l).foldl (fun text e => text.map (rmDependency · e)) t.dependency ∧
    ((t'.depends = true ∨ t'.expands = true) ↔ (t.depends = true ∨ t.expands = true) ∨ l' ≠ []) := by
  fun_induction testEntries generalizing l' with
  | case1 t =>
    cases h
    exact ⟨fun e he => absurd he not_mem_nil, rfl, hf, hcount, rfl, by simp⟩
  | case2 e l t e' t0 depends failure hv t1 =>
    rename_i ih
    obtain ⟨⟨t2, l1⟩, h1, heq⟩ := map_eq_some_iff.1 h
    obtain ⟨rfl, rfl⟩ : t2 = t' ∧ e' :: l1 = l' := by simpa using heq
    have ht1 : t1.count = l.length ∧ t1.dependency = t.dependency ∧ t1.failure = t.failure ∧ t1.depends = t.depends ∧
        (t1.expands = true ↔ t.expands = true ∨ e'.dependType = .expand) := by
      simp only [t1]
      split <;> simp [t0, *]
    obtain ⟨hrest, rfl, hf', hcount', htext, hflags⟩ := ih h1 ht1.1
    obtain ⟨hf0, rfl⟩ : t.failure = false ∧ failure = false := by simpa [ht1] using hf'
    have hx : depends = true ∨ e'.dependType = .expand := by simpa using verdict_keep hv
    have hflags' : t2.depends = true ∨ t2.expands = true := by
      rw [hflags]
      simp only [Bool.or_eq_true, ht1]
      tauto
    have hk : kept s j (e :: l) = e' :: kept s j l := by simp [kept, hv, e', Verdict.keeps]
    have hcl : cleared s j (e :: l) = cleared s j l := by simp [cleared, hv, e']
    rw [forall_mem_cons, hk, hcl, ← ht1.2.1]
    exact ⟨⟨by simp [hv, e'], hrest⟩, rfl, hf0, hcount', htext, by simp [hflags']⟩
  | case3 e l t e' t0 hv =>
    rename_i ih
    simpa [kept, cleared, hv, e', Verdict.keeps] using ih h (congrArg (· - 1) hcount)
  | case4 => cases h
  | case5 e l t e' t0 hv text hd =>
    rename_i ih
    have hd' : t.dependency = some text := hd
    simpa [kept, cleared, hv, e', Verdict.keeps, hd'] using ih h (congrArg (· - 1) hcount)
  | case6 =>
    cases h
    cases hf

theorem testEntries_isSome (h : t.dependency ≠ none) : (testEntries s j now l t).isSome = true := by
  fun_induction testEntries with
  | case1 | case6 => rfl
  | case2 e l t _ _ depends failure hv t1 ih =>
    rw [isSome_map]
    refine ih ?_
    dsimp only [t1]
    split <;> simpa using h
  | case3 e l t _ _ hv ih => exact ih h
  | case4 e l t _ _ hv hd => exact absurd hd h
  | case5 e l t _ _ hv text hd ih => exact ih (by simp)

/-- **What a test that does not fail leaves**: the entries that are kept, the text without those that
    are cleared, and no text if no entry is kept. -/
theorem testJobDependency_eq {details : Details} {s' : Jobs} {a : Answer}
    (hd : (s.job j).details = some details) (hl : details.dependList = some l)
    (h : testJobDependency s j now = some (s', a)) (ha : a ≠ .failure) :
    (∀ e ∈ l, verdict s j (advance s e) ≠ .fail) ∧
    ∃ timeLimit shared, s' = s.setJob j { s.job j with
      timeLimit := timeLimit
      details := some { details with
        dependency := if kept s j l = [] then none else
          (cleared s j l).foldl (fun text e => text.map (rmDependency · e)) details.dependency
        dependList := some (kept s j l)
        shared := shared } } := by
  rw [testJobDependency, hd] at h
  simp only [hl] at h
  obtain ⟨⟨t, l'⟩, ht, heq⟩ := map_eq_some_iff.1 h
  cases heq
  have hf : t.failure = false := by
    cases hf : t.failure with
    | false => rfl
    | true => simp [hf] at ha
  obtain ⟨hfail, rfl, -, hcount, htext, hflags⟩ := testEntries_eq ht hf rfl
  refine ⟨hfail, t.timeLimit, t.shared, ?_⟩
  have hfree : (t.depends = false ∧ t.expands = false ∧ t.count = 0) ↔ kept s j l = [] := by
    have hflags' : (t.depends = true ∨ t.expands = true) ↔ ¬kept s j l = [] := by simpa using hflags
    rw [← not_iff_not, ← hflags']
    cases t.depends <;> cases t.expands <;> simp [hcount]
  simp only [hfree, htext]

end Slurmpp.Depend
