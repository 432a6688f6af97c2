/-
  Job dependencies: how a text such as `afterok:123:124,after:128` is read and taken over.  The text has three kinds
  of tokens:

  * `singleton`             — an entry without a job;
  * a bare id (old format)  — only alone or behind `singleton`s; it is rewritten as `afterany`;
  * `type:id:id…`           — an inner loop over ids; a type is recognised by how the token BEGINS.

  An id without a task that is the id of an array stands for the whole array (`INFINITE`).  For `_*` the wrong pointer
  is moved on, so that it is always refused.  The loops take a number of steps to go that is more than the length of
  the text, and then never run out (`parseToks_fuel`).
-/
import Slurmpp.Lib.Text

namespace Slurmpp.Depend

open Text List

/-! ## Jobs -/

inductive JobState
  | pending
  | running
  | suspended
  | complete
  | cancelled
  | failed
  | timeout
  | nodeFail
  | preempted
deriving DecidableEq, Repr

/-- `IS_JOB_FINISHED`: any state after `suspended`. -/
def JobState.isFinished : JobState → Bool
  | .pending | .running | .suspended => false
  | .complete | .cancelled | .failed | .timeout | .nodeFail | .preempted => true

/-- The types `SLURM_DEPEND_*`. -/
inductive DependType
  | after
  | afterAny
  | afterNotOk
  | afterOk
  | singleton
  | expand
deriving DecidableEq, Repr

/-- `(uint16_t) NO_VAL`: no task of an array. -/
def noVal16 : Nat := 0xfffe

/-- `(uint16_t) INFINITE`: all tasks of an array. -/
def infinite16 : Nat := 0xffff

/-- A `depend_spec`; jobs are pointed to. -/
structure DependSpec where
  arrayTaskId : Nat
  dependType : DependType
  jobId : Nat
  jobPtr : Option Nat
deriving DecidableEq, Repr

/-- The fields of `job_details` that dependencies use. -/
structure Details where
  dependency : Option Text
  dependList : Option (List DependSpec)
  expandingJobid : Nat
  shared : Nat
deriving DecidableEq, Repr

/-- The fields of a `job_record` that dependencies use. -/
structure JobRecord where
  magic : Bool
  jobId : Nat
  arrayJobId : Nat
  arrayTaskId : Nat
  jobState : JobState
  userId : Nat
  name : Option Text
  qosId : Nat
  partPtr : Option Nat
  gres : Option Text
  endTime : Nat
  timeLimit : Nat
  details : Option Details
deriving DecidableEq, Repr

/-- `job_list` and the memory of job records. -/
structure Jobs where
  jobList : List Nat
  job : Nat → JobRecord

namespace Jobs

def setJob (s : Jobs) (j : Nat) (r : JobRecord) : Jobs := { s with job := Function.update s.job j r }

@[simp]
theorem setJob_job (s : Jobs) (j : Nat) (r : JobRecord) : (s.setJob j r).job j = r :=
  Function.update_self ..

theorem setJob_job_of_ne (s : Jobs) {j k : Nat} (r : JobRecord) (h : k ≠ j) : (s.setJob j r).job k = s.job k :=
  Function.update_of_ne h ..

def findJobRecord (s : Jobs) (jobId : Nat) : Option Nat :=
  s.jobList.find? fun l => decide ((s.job l).jobId = jobId)

/-- `find_job_array_rec`: of a whole array the first unfinished task, or else the last. -/
def findJobArrayRec (s : Jobs) (arrayJobId arrayTaskId : Nat) : Option Nat :=
  if arrayTaskId = noVal16 then s.findJobRecord arrayJobId
  else
    let l := s.jobList.filter fun l => decide ((s.job l).arrayJobId = arrayJobId)
    if arrayTaskId = infinite16 then
      (l.find? fun k => !(s.job k).jobState.isFinished).or l.getLast?
    else l.find? fun k => decide ((s.job k).arrayTaskId = arrayTaskId)

/-- The job with an id, and `INFINITE` for the task if that is an array. -/
def findJobOrArray (s : Jobs) (jobId : Nat) : Option Nat × Nat :=
  match s.findJobRecord jobId with
  | some d =>
    (some d, if (s.job d).arrayJobId = jobId ∧ (s.job d).arrayTaskId ≠ noVal16 then infinite16
      else noVal16)
  | none => (none, noVal16)

end Jobs

/-! ## Reading -/

/-- `strtol (s, &rest, 10)`: the number and what follows it; the text itself if there is none. -/
def strtol (s : Text) : Int × Text :=
  let (neg, t) := match s.dropWhile isSpace with
    | '-' :: u => (true, u)
    | '+' :: u => (false, u)
    | u => (false, u)
  if t.takeWhile Char.isDigit = [] then (0, s)
  else
    (max (-2 ^ 63) (min (2 ^ 63 - 1) (if neg then -(leadingNat t : Int) else leadingNat t)), t.dropWhile Char.isDigit)

/-- Assignment to a `uint32_t`. -/
def uint32 (n : Int) : Nat := (n % 2 ^ 32).toNat

/-- Assignment to a `uint16_t`. -/
def uint16 (n : Int) : Nat := (n % 2 ^ 16).toNat

/-- `strncasecmp (tok, w, strlen (w)) == 0`. -/
def hasWord (w tok : Text) : Bool := decide ((tok.take w.length).map Char.toLower = w)

/-- A task behind an id, and what follows. -/
def readTask (sep : Text) : Nat × Text :=
  match sep with
  | '_' :: '*' :: _ => (infinite16, sep)
  | '_' :: u => (uint16 (strtol u).1, (strtol u).2)
  | _ => (noVal16, sep)

def readType (tok : Text) : Option DependType :=
  if hasWord "afternotok".toList tok then some .afterNotOk
  else if hasWord "afterany".toList tok then some .afterAny
  else if hasWord "afterok".toList tok then some .afterOk
  else if hasWord "after".toList tok then some .after
  else if hasWord "expand".toList tok then some .expand
  else none

/-- The variables of the parser: the last id read, whether a job is to be expanded, the new list, and
    the fields of the job that are set while reading. -/
structure Parse where
  jobId : Nat
  expandCnt : Bool
  list : List DependSpec
  expandingJobid : Nat
  gres : Option Text
deriving DecidableEq, Repr

variable (s : Jobs) (j : Nat) (expandAllow : Bool)

/-- A job that the job `j` may not expand. -/
def expandRefused (expandCnt : Bool) : Option Nat → Bool
  | none => true
  | some d =>
    expandCnt || decide ((s.job d).jobState ≠ .running) ||
      decide ((s.job d).qosId ≠ (s.job j).qosId) || (s.job d).partPtr.isNone ||
      (s.job j).partPtr.isNone || decide ((s.job d).partPtr ≠ (s.job j).partPtr)

/-- An id is followed by the end, by a type or by an id. -/
def endsId (sep : Text) : Bool := sep.head?.all fun c => c == ',' || c == ':'

/-- The job that an id and a task stand for, and the task that is noted. -/
def resolve (jobId task : Nat) : Option Nat × Nat :=
  if task = noVal16 then s.findJobOrArray jobId else (s.findJobArrayRec jobId task, task)

/-- An id of the new format; `none` if it is refused. -/
def parseId (depType : DependType) (sep : Text) (p : Parse) : Parse × Option Text :=
  let jobId := uint32 (strtol sep).1
  let (task, sep₂) := readTask (strtol sep).2
  let p := { p with jobId := jobId }
  if jobId = 0 ∨ jobId = (s.job j).jobId ∨ endsId sep₂ = false then (p, none)
  else
    let (dep, task) := resolve s jobId task
    if depType = .expand ∧ expandRefused s j p.expandCnt dep then (p, none)
    else
      let p := if depType = .expand then
        { p with expandCnt := true, expandingJobid := jobId, gres := dep.bind fun d => (s.job d).gres }
        else p
      match dep with
      | some d =>
        ({ p with list := p.list ++ [⟨task, depType, (s.job d).jobId, some d⟩] }, some sep₂)
      | none => (p, some sep₂)

/-- The inner loop: ids with colons between. -/
def parseIds (depType : DependType) : Nat → Text → Parse → Parse × Option Text
  | 0, _, p => (p, none)
  | fuel + 1, sep, p =>
    match parseId s j depType sep p with
    | (p, some (':' :: sep)) => parseIds depType fuel sep p
    | r => r

/-- A bare id; `none` if it is refused, or else the text that is stored if it is rewritten. -/
def parseOld (tok : Text) (p : Parse) : Parse × Option (Option Text) :=
  let jobId := uint32 (strtol tok).1
  let (task, sep) := match (strtol tok).2 with
    | '_' :: '*' :: u => (infinite16, '*' :: u)
    | rest => readTask rest
  let p := { p with jobId := jobId }
  if sep ≠ [] ∨ jobId = 0 ∨ jobId = (s.job j).jobId then (p, none)
  else
    let (dep, task') := resolve s jobId task
    match dep with
    | none => (p, some none)
    | some d =>
      let text := "afterany:".toList ++ ofNat jobId ++
        if task ≠ noVal16 then '_' :: ofNat task
        else if task' = infinite16 then "_*".toList else []
      let id := if task' = noVal16 then (s.job d).jobId else (s.job d).arrayJobId
      ({ p with list := p.list ++ [⟨task', .afterAny, id, some d⟩] }, some (some text))

/-- What is left to do after a token. -/
inductive Next
  | refused
  | stop
  | rewrite (text : Text)
  | go (tok : Text)
deriving DecidableEq, Repr

/-- One turn of the outer loop. -/
def parseTok (tok : Text) (p : Parse) : Parse × Next :=
  if hasWord "singleton".toList tok then
    ({ p with list := p.list ++ [⟨0, .singleton, 0, none⟩] },
      match tok.drop 9 with
      | ',' :: rest => .go rest
      | _ => .stop)
  else
    match tok.dropWhile (· ≠ ':') with
    | [] =>
      if p.jobId = 0 then
        match parseOld s j tok p with
        | (p, none) => (p, .refused)
        | (p, some none) => (p, .stop)
        | (p, some (some text)) => (p, .rewrite text)
      else (p, .refused)
    | _ :: sep =>
      match readType tok with
      | none => (p, .refused)
      | some depType =>
        if depType = .expand ∧ expandAllow = false then (p, .refused)
        else
          match parseIds s j depType (sep.length + 1) sep p with
          | (p, none) => (p, .refused)
          | (p, some (',' :: rest)) => (p, .go rest)
          | (p, some _) => (p, .stop)

/-- The outer loop over a text that would be stored as `text`; `none` if it is refused. -/
def parseToks (text : Text) : Nat → Text → Parse → Parse × Option Text
  | 0, _, p => (p, none)
  | fuel + 1, tok, p =>
    match parseTok s j expandAllow tok p with
    | (p, .refused) => (p, none)
    | (p, .stop) => (p, some text)
    | (p, .rewrite text) => (p, some text)
    | (p, .go rest) => parseToks text fuel rest p

def parseDepend (text : Text) : Parse × Option Text :=
  parseToks s j expandAllow text (text.length + 1) text ⟨0, false, [], 0, (s.job j).gres⟩

/-! ## Circles -/

variable (maxDependDepth : Nat)

/-- The loop of `_scan_depend` over a list; `scan` is the recursive call. -/
def scanEntries (jobId : Nat) (scan : Nat → List DependSpec → Bool × Nat) :
    Nat → List DependSpec → Bool × Nat
  | counter, [] => (false, counter)
  | counter, dep :: l =>
    if dep.jobId = 0 then scanEntries jobId scan counter l
    else if dep.jobId = jobId then (true, counter)
    else
      match dep.jobPtr with
      | none => scanEntries jobId scan counter l
      | some d =>
        -- a purged job
        if dep.jobId ≠ (s.job d).jobId ∨ (s.job d).magic = false then
          scanEntries jobId scan counter l
        else
          match (s.job d).jobState.isFinished, (s.job d).details.bind (·.dependList) with
          | false, some l' =>
            match scan counter l' with
            | (true, counter) => (true, counter)
            | (false, counter) => scanEntries jobId scan counter l
          | _, _ => scanEntries jobId scan counter l

/-- `_scan_depend` from the counter on; it goes no deeper than the counter allows. -/
def scanDepend (jobId : Nat) : Nat → Nat → List DependSpec → Bool × Nat
  | 0, counter, _ => (false, counter)
  | fuel + 1, counter, l =>
    if maxDependDepth ≤ counter then (false, counter + 1)
    else scanEntries s jobId (scanDepend jobId fuel) (counter + 1) l

/-! ## Taking over -/

inductive Rc
  | success
  | einval
  | dependency
  | circular
deriving DecidableEq, Repr

def clears : Option Text → Bool
  | none => true
  | some text => decide (text = [] ∨ text = ['0'])

def updateJobDependency (newDepend : Option Text) : Jobs × Rc :=
  match (s.job j).details with
  | none => (s, .einval)
  | some details =>
    if clears newDepend then
      (s.setJob j { s.job j with details := some { details with
        dependency := none, dependList := none, expandingJobid := 0 } }, .success)
    else
      let (p, text) := parseDepend s j expandAllow (newDepend.getD [])
      -- these are set even if the text is refused in the end
      let r := { s.job j with
        gres := p.gres, details := some { details with expandingJobid := p.expandingJobid } }
      match text with
      | none => (s.setJob j r, .dependency)
      | some text =>
        if (scanDepend s maxDependDepth (s.job j).jobId (maxDependDepth + 1) 0 p.list).1 then
          (s.setJob j r, .circular)
        else
          (s.setJob j { r with details := some { details with
            dependency := some text, dependList := some p.list,
            expandingJobid := p.expandingJobid } }, .success)

/-! ## The loops come to an end -/

section Fuel

variable {s j expandAllow maxDependDepth} {depType : DependType} {p : Parse} {sep tok rest : Text}

theorem strtol_eq (w : Text) : strtol w =
    let u := w.dropWhile isSpace
    let t := if u.head? = some '-' ∨ u.head? = some '+' then u.tail else u
    if t.takeWhile Char.isDigit = [] then (0, w)
    else
      (max (-2 ^ 63) (min (2 ^ 63 - 1)
        (if u.head? = some '-' then -(leadingNat t : Int) else leadingNat t)), t.dropWhile Char.isDigit) := by
  rw [strtol]
  cases w.dropWhile isSpace with
  | nil => rfl
  | cons c u =>
    by_cases hm : c = '-'
    · subst hm
      rfl
    · by_cases hp : c = '+'
      · subst hp
        rfl
      · simp [hm, hp]

theorem suffix_strtol (w : Text) : (strtol w).2 <:+ w := by
  rw [strtol_eq]
  have htail : ∀ u : Text, (if u.head? = some '-' ∨ u.head? = some '+' then u.tail else u) <:+ u := by
    intro u
    split_ifs
    · exact tail_suffix _
    · exact suffix_refl _
  dsimp only
  split_ifs
  all_goals first
    | exact suffix_refl _
    | exact (dropWhile_suffix _).trans ((tail_suffix _).trans (dropWhile_suffix _))
    | exact (dropWhile_suffix _).trans (dropWhile_suffix _)

theorem suffix_readTask (w : Text) : (readTask w).2 <:+ w := by
  unfold readTask
  split
  · exact suffix_refl _
  · exact (suffix_strtol _).trans (suffix_cons _ _)
  · exact suffix_refl _

theorem length_parseId {p' : Parse} (h : parseId s j depType sep p = (p', some rest)) : rest.length ≤ sep.length := by
  have hrest : (readTask (strtol sep).2).2 = rest := by
    replace h := congrArg Prod.snd h
    simp only [parseId] at h
    generalize resolve s (uint32 (strtol sep).1) (readTask (strtol sep).2).1 = r at h
    split_ifs at h
    · cases hr : r.1 <;> simpa [hr] using h
    · cases hr : r.1 <;> simpa [hr] using h
  rw [← hrest]
  exact ((suffix_readTask _).trans (suffix_strtol sep)).length_le

theorem length_parseIds {fuel : Nat} {p' : Parse}
    (h : parseIds s j depType fuel sep p = (p', some rest)) : rest.length ≤ sep.length := by
  fun_induction parseIds with
  | case1 => cases h
  | case2 fuel sep p p1 sep1 hid ih =>
    have h1 := length_parseId hid
    have h2 := ih h
    rw [length_cons] at h1
    omega
  | case3 => exact length_parseId h

theorem parseIds_fuel {n m : Nat} (hn : sep.length < n) (hm : sep.length < m) :
    parseIds s j depType n sep p = parseIds s j depType m sep p := by
  induction n generalizing m sep p with
  | zero => omega
  | succ n ih =>
    obtain ⟨m, rfl⟩ : ∃ k, m = k + 1 := Nat.exists_eq_succ_of_ne_zero (by omega)
    rw [parseIds, parseIds]
    split
    next p1 sep1 hid =>
      have h1 := length_parseId hid
      rw [length_cons] at h1
      exact ih (by omega) (by omega)
    · rfl

theorem length_parseTok {p' : Parse} (h : parseTok s j expandAllow tok p = (p', .go rest)) :
    rest.length < tok.length := by
  revert h
  fun_cases parseTok with
  | case1 hword =>
    intro h
    have hgo := congrArg Prod.snd h
    split at hgo
    next u hu =>
      cases hgo
      have := congrArg length hu
      rw [length_drop, length_cons] at this
      omega
    · cases hgo
  | case9 hword c sep hsep depType _ _ p1 rest1 hids =>
    rintro ⟨⟩
    have hlen := (dropWhile_sublist (p := (· ≠ ':')) (l := tok)).length_le
    have := length_parseIds hids
    rw [hsep, length_cons] at hlen
    rw [length_cons] at this
    omega
  | case2 | case3 | case4 | case5 | case6 | case7 | case8 | case10 => exact nofun

/-- **Enough steps**: more of them change nothing. -/
theorem parseToks_fuel {text : Text} {n m : Nat} (hn : tok.length < n) (hm : tok.length < m) :
    parseToks s j expandAllow text n tok p = parseToks s j expandAllow text m tok p := by
  induction n generalizing m tok p with
  | zero => omega
  | succ n ih =>
    obtain ⟨m, rfl⟩ : ∃ k, m = k + 1 := Nat.exists_eq_succ_of_ne_zero (by omega)
    rw [parseToks, parseToks]
    split
    · rfl
    · rfl
    · rfl
    next p1 rest htok =>
      have := length_parseTok htok
      exact ih (by omega) (by omega)

end Fuel

end Slurmpp.Depend
