/-
  Licenses: what is counted as used is what the running jobs hold.

  * a job starts       — `license_job_test` allows it and `license_job_get` adds its amounts;
  * a job ends         — `license_job_return` takes them off again;
  * a reconfiguration  — `license_update` builds a new list and carries the counts over BY NAME.

  The last one forgets: a name that is dropped takes its count with it, and when it is configured again it starts from
  zero, although jobs may still hold it (`readded_license_unused`).  And the test adds 32-bit numbers, which may wrap
  around.  Each call is described by what it does to the record of a name (`find_get`, `find_ret`, `find_carry`).
-/
import Slurmpp.Lib.Machine
import Slurmpp.Lib.Text

namespace Slurmpp.Licenses

open List Option

/-! ## Lists of licenses -/

structure License where
  name : Text
  total : Nat
  used : Nat
deriving DecidableEq, Repr

/-- A `uint32_t`. -/
def u32 (n : Nat) : Nat := n % 2 ^ 32

/-- `list_find_first` with `_license_find_rec`. -/
def find (l : List License) (name : Text) : Option License := l.find? fun m => decide (m.name = name)

def modify (name : Text) (f : License → License) : List License → List License
  | [] => []
  | m :: l => if m.name = name then f m :: l else m :: modify name f l

def License.addTotal (n : Nat) (m : License) : License := { m with total := u32 (m.total + n) }

def License.addUsed (n : Nat) (m : License) : License := { m with used := u32 (m.used + n) }

def License.subUsed (n : Nat) (m : License) : License :=
  { m with used := if n ≤ m.used then m.used - n else 0 }

def License.setUsed (n : Nat) (m : License) : License := { m with used := n }

/-- The names and numbers of a text. -/
abbrev Tokens := List (Text × Nat)

/-- One turn of the loop of `_build_license_list`. -/
def addToken (l : List License) (t : Text × Nat) : List License :=
  match find l t.1 with
  | some _ => modify t.1 (.addTotal (u32 t.2)) l
  | none => ⟨t.1, u32 t.2, 0⟩ :: l

/-- `_build_license_list`: `none` if it is not valid, and a NULL list for no text. -/
def buildLicenseList : Option Tokens → Option (Option (List License))
  | none => some none
  | some ts => if ts.all (fun t => u32 t.2 ≠ 0) then some (some (ts.foldl addToken [])) else none

def Distinct (l : List License) : Prop := (l.map License.name).Nodup

theorem distinct_nil : Distinct [] := nodup_nil

section Find

variable {l : List License} {name : Text} {f : License → License} {m : License}

theorem find_cons : find (m :: l) name = if m.name = name then some m else find l name := by
  unfold find
  rw [find?_cons]
  by_cases h : m.name = name <;> simp [h]

theorem mem_of_find (h : find l name = some m) : m ∈ l ∧ m.name = name :=
  ⟨mem_of_find?_eq_some h, by simpa using find?_some h⟩

theorem find_eq_none (h : name ∉ l.map License.name) : find l name = none := by
  refine find?_eq_none.2 fun m hm => ?_
  simp only [decide_eq_true_eq]
  rintro rfl
  exact h (mem_map_of_mem hm)

theorem Distinct.find_of_mem (hl : Distinct l) (hm : m ∈ l) : find l m.name = some m := by
  induction l with
  | nil => cases hm
  | cons m' l ih =>
    have hnd := nodup_cons.1 hl
    rw [find_cons]
    rcases mem_cons.1 hm with rfl | hm
    · rw [if_pos rfl]
    · have hne : m'.name ≠ m.name := fun h => hnd.1 (h ▸ mem_map_of_mem hm)
      rw [if_neg hne]
      exact ih hnd.2 hm

theorem find_modify (hf : ∀ m, (f m).name = m.name) (n name : Text) :
    find (modify n f l) name = if name = n then (find l n).map f else find l name := by
  induction l with
  | nil => simp [modify, find]
  | cons m l ih =>
    rw [modify]
    by_cases hm : m.name = n
    · rw [if_pos hm, find_cons, hf, find_cons, find_cons, if_pos hm, hm]
      by_cases hn : name = n
      · rw [if_pos hn, if_pos hn.symm]
        rfl
      · rw [if_neg hn, if_neg (Ne.symm hn), if_neg (Ne.symm hn)]
    · rw [if_neg hm, find_cons, find_cons, find_cons, if_neg hm, ih]
      by_cases hn : name = n
      · rw [if_pos hn, if_pos hn, if_neg (hn ▸ hm)]
      · rw [if_neg hn, if_neg hn]

theorem map_modify {α : Type} {g : License → α} (hf : ∀ m, g (f m) = g m) (n : Text) (l : List License) :
    (modify n f l).map g = l.map g := by
  induction l with
  | nil => rfl
  | cons m l ih =>
    rw [modify]
    split_ifs
    · rw [map_cons, map_cons, hf]
    · rw [map_cons, map_cons, ih]

theorem Distinct.modify (hl : Distinct l) (hf : ∀ m, (f m).name = m.name) (n : Text) : Distinct (modify n f l) := by
  rw [Distinct, map_modify hf]
  exact hl

/-- **A list that is built has no name twice, and nothing is used.** -/
theorem buildLicenseList_spec {c : Option Tokens} (h : buildLicenseList c = some (some l)) :
    Distinct l ∧ ∀ m ∈ l, m.used = 0 := by
  cases c with
  | none => exact absurd (some.inj h) (by simp)
  | some ts =>
    obtain ⟨-, h⟩ := ite_none_right_eq_some.1 h
    cases some.inj h
    have hstep : ∀ (l : List License) (t : Text × Nat), (Distinct l ∧ ∀ m ∈ l, m.used = 0) →
        Distinct (addToken l t) ∧ ∀ m ∈ addToken l t, m.used = 0 := by
      rintro l t ⟨hd, hu⟩
      unfold addToken
      cases hfind : find l t.1 with
      | none =>
        have hnew : t.1 ∉ l.map License.name := by
          intro hmem
          obtain ⟨m, hm, hname⟩ := mem_map.1 hmem
          rw [← hname, hd.find_of_mem hm] at hfind
          cases hfind
        exact ⟨nodup_cons.2 ⟨hnew, hd⟩, forall_mem_cons.2 ⟨rfl, hu⟩⟩
      | some m' =>
        refine ⟨hd.modify (by exact fun _ => rfl) _, ?_⟩
        have hused : ∀ n ∈ l.map License.used, n = 0 := List.forall_mem_map.2 hu
        rw [← map_modify (f := .addTotal (u32 t.2)) (by exact fun _ => rfl) t.1] at hused
        exact List.forall_mem_map.1 hused
    exact foldlRecOn ts addToken ⟨distinct_nil, fun m hm => absurd hm (by simp)⟩
      fun l hl t _ => hstep l t hl

end Find

/-! ## The calls -/

def amount (name : Text) (req : List License) : Nat := ((find req name).map License.total).getD 0

/-- Return codes of `license_job_test`. -/
inductive TestRc
  | success
  | again
  | error
deriving DecidableEq, Repr

/-- The loop of `license_job_test`; `resv` are the licenses that reservations hold back. -/
def testLoop (l : List License) (resv : Text → Nat) : List License → TestRc
  | [] => .success
  | e :: req =>
    match find l e.name with
    | none => .error
    | some m =>
      if m.total < e.total then .error
      else if m.total < u32 (e.total + m.used) then .again
      else if m.total < u32 (e.total + m.used + resv e.name) then .again
      else testLoop l resv req

/-- `license_job_test`; `none` is a fault, the search of a NULL list. -/
def licenseJobTest (l : Option (List License)) (resv : Text → Nat) :
    Option (List License) → Option TestRc
  | none => some .success
  | some req =>
    match l with
    | some l => some (testLoop l resv req)
    | none => if req = [] then some .success else none

/-- The loop of `license_job_get`: the configured list, and the list of the job. -/
def getLoop : List License → List License → List License × List License
  | l, [] => (l, [])
  | l, e :: req =>
    match find l e.name with
    | some _ =>
      let (l, req) := getLoop (modify e.name (.addUsed e.total) l) req
      (l, e.addUsed e.total :: req)
    | none =>
      let (l, req) := getLoop l req
      (l, e :: req)

def licenseJobGet (l req : Option (List License)) : Option (Option (List License) × Option (List License)) :=
  match req with
  | none => some (l, none)
  | some req =>
    match l with
    | some l => some (some (getLoop l req).1, some (getLoop l req).2)
    | none => if req = [] then some (none, some []) else none

def returnLoop : List License → List License → List License
  | l, [] => l
  | l, e :: req =>
    returnLoop (modify e.name (.subUsed e.total) l) req

def licenseJobReturn (l req : Option (List License)) : Option (Option (List License)) :=
  match req with
  | none => some l
  | some req =>
    match l with
    | some l => some (some (returnLoop l req))
    | none => if req = [] then some none else none

/-- The loop of `license_update`: the counts are carried over to the new list. -/
def carry (old new : List License) : List License :=
  old.foldl (fun new e => modify e.name (.setUsed e.used) new) new

/-- `license_update` with the new list; `none` is a fault, the search of a NULL list. -/
def licenseUpdate (l new : Option (List License)) : Option (Option (List License)) :=
  match l with
  | none => some new
  | some l =>
    match new with
    | some new => some (some (carry l new))
    | none => if l = [] then some none else none

section Calls

variable {l req new : List License} {name : Text}

theorem amount_cons (e : License) : amount name (e :: req) = if e.name = name then e.total else amount name req := by
  rw [amount, find_cons]
  split_ifs <;> rfl

theorem amount_eq_zero (h : name ∉ req.map License.name) : amount name req = 0 := by
  rw [amount, find_eq_none h]
  rfl

/-- **What is got**: the amount of the name is added. -/
theorem find_get (hreq : Distinct req) (l : List License) (name : Text) :
    find (getLoop l req).1 name =
      if name ∈ req.map License.name then (find l name).map (.addUsed (amount name req)) else find l name := by
  induction req generalizing l with
  | nil => simp [getLoop]
  | cons e req ih =>
    have hnd := nodup_cons.1 hreq
    rw [getLoop]
    cases hfind : find l e.name with
    | none =>
      rw [ih hnd.2, amount_cons]
      by_cases hn : e.name = name
      · subst hn
        rw [hfind]
        simp
      · simp only [map_cons, mem_cons, Ne.symm hn, false_or, if_neg hn]
    | some m =>
      rw [ih hnd.2, find_modify (by exact fun _ => rfl), amount_cons]
      by_cases hn : e.name = name
      · subst hn
        have hmem : e.name ∈ (e :: req).map License.name := mem_cons_self
        rw [if_neg hnd.1, if_pos rfl, if_pos rfl, if_pos hmem]
      · rw [if_neg (Ne.symm hn), if_neg hn]
        simp only [map_cons, mem_cons, Ne.symm hn, false_or]

/-- **What is returned**: the amount of the name is taken off. -/
theorem find_return (hreq : Distinct req) (l : List License) (name : Text) :
    find (returnLoop l req) name = (find l name).map (.subUsed (amount name req)) := by
  induction req generalizing l with
  | nil =>
    have hsub : License.subUsed (amount name []) = id := rfl
    rw [returnLoop, hsub, Option.map_id]
    rfl
  | cons e req ih =>
    have hnd := nodup_cons.1 hreq
    rw [returnLoop, ih hnd.2, find_modify (by exact fun _ => rfl), amount_cons]
    by_cases hn : e.name = name
    · subst hn
      have hsub : License.subUsed 0 = id := rfl
      rw [if_pos rfl, if_pos rfl, amount_eq_zero hnd.1, hsub, Option.map_id]
      rfl
    · rw [if_neg (Ne.symm hn), if_neg hn]

/-- **What is carried over**: the count of a name that was there before. -/
theorem find_carry (hl : Distinct l) (new : List License) (name : Text) :
    find (carry l new) name =
      (find new name).map fun m => m.setUsed (((find l name).map License.used).getD m.used) := by
  unfold carry
  induction l generalizing new with
  | nil =>
    show find new name = (find new name).map id
    rw [Option.map_id]
    rfl
  | cons e l ih =>
    have hnd := nodup_cons.1 hl
    rw [foldl_cons, ih hnd.2, find_modify (by exact fun _ => rfl), find_cons]
    by_cases hn : e.name = name
    · subst hn
      rw [if_pos rfl, if_pos rfl, find_eq_none hnd.1, Option.map_map]
      rfl
    · rw [if_neg (Ne.symm hn), if_neg hn]

theorem names_get (l req : List License) :
    (getLoop l req).1.map License.name = l.map License.name ∧
      (getLoop l req).2.map License.name = req.map License.name ∧
      (getLoop l req).2.map License.total = req.map License.total := by
  induction req generalizing l with
  | nil => exact ⟨rfl, rfl, rfl⟩
  | cons e req ih =>
    rw [getLoop]
    cases find l e.name with
    | none =>
      obtain ⟨h1, h2, h3⟩ := ih l
      exact ⟨h1, congrArg (e.name :: ·) h2, congrArg (e.total :: ·) h3⟩
    | some m =>
      obtain ⟨h1, h2, h3⟩ := ih (modify e.name (.addUsed e.total) l)
      refine ⟨h1.trans (map_modify (by exact fun _ => rfl) _ _), congrArg (e.name :: ·) h2,
        congrArg (e.total :: ·) h3⟩

theorem names_return (l req : List License) : (returnLoop l req).map License.name = l.map License.name := by
  induction req generalizing l with
  | nil => rfl
  | cons e req ih => rw [returnLoop, ih, map_modify (by exact fun _ => rfl)]

theorem names_carry (l new : List License) : (carry l new).map License.name = new.map License.name := by
  unfold carry
  induction l generalizing new with
  | nil => rfl
  | cons e l ih => rw [foldl_cons, ih, map_modify (by exact fun _ => rfl)]

theorem amount_congr {req' : List License} (hn : req'.map License.name = req.map License.name)
    (ht : req'.map License.total = req.map License.total) (name : Text) : amount name req' = amount name req := by
  induction req generalizing req' with
  | nil =>
    obtain rfl : req' = [] := map_eq_nil_iff.1 hn
    rfl
  | cons e req ih =>
    obtain ⟨e', r', rfl, hname, hn⟩ := map_eq_cons_iff.1 hn
    rw [map_cons, map_cons, cons.injEq] at ht
    rw [amount_cons, amount_cons, hname, ht.1, ih hn ht.2]

theorem testLoop_success {resv : Text → Nat} (h : testLoop l resv req = .success) :
    ∀ e ∈ req, ∃ m, find l e.name = some m ∧ u32 (e.total + m.used) ≤ m.total := by
  fun_induction testLoop with
  | case1 => exact forall_mem_nil _
  | case2 | case3 | case4 | case5 => cases h
  | case6 e req m hfind _ _ _ ih => exact forall_mem_cons.2 ⟨⟨m, hfind, by omega⟩, ih h⟩

end Calls

/-! ## The system -/

structure State where
  licenseList : Option (List License)
  running : List (Nat × Option (List License))
deriving DecidableEq

inductive Move
  | start (jobId : Nat) (request : Option Tokens) (resv : Text → Nat)
  | finish (jobId : Nat)
  | update (conf : Option Tokens)

/-- `license_job_test` and, if it allows the job to start, `license_job_get`. -/
def startJob (s : State) (jobId : Nat) (req : Option (List License)) (resv : Text → Nat) : Option State :=
  if licenseJobTest s.licenseList resv req = some .success then
    (licenseJobGet s.licenseList req).map fun (l, req) => ⟨l, s.running ++ [(jobId, req)]⟩
  else none

def system : Machine State Move where
  step s
    | .start jobId request resv =>
      if jobId ∈ s.running.map Prod.fst then none
      else (buildLicenseList request).bind fun req => startJob s jobId req resv
    | .finish jobId =>
      (s.running.find? fun j => decide (j.1 = jobId)).bind fun j =>
        (licenseJobReturn s.licenseList j.2).map fun l => ⟨l, s.running.erase j⟩
    | .update conf =>
      (buildLicenseList conf).bind fun new =>
        (licenseUpdate s.licenseList new).map fun l => ⟨l, s.running⟩

def licenseInit (conf : Option Tokens) : Option State :=
  (buildLicenseList conf).map fun l => ⟨l, []⟩

def State.held (s : State) (name : Text) : Nat :=
  (s.running.map fun j => amount name (j.2.getD [])).sum

def State.licenses (s : State) : List License := s.licenseList.getD []

/-- A new name is held by no running job, and no sum of a request and a used count wraps. -/
def Fits (s : State) : Move → Prop
  | .start _ request _ =>
    ∀ e ∈ ((buildLicenseList request).bind id).getD [], ∀ m ∈ s.licenses, m.name = e.name → e.total + m.used < 2 ^ 32
  | .finish _ => True
  | .update conf =>
    ∀ m ∈ ((buildLicenseList conf).bind id).getD [], find s.licenses m.name = none → s.held m.name = 0

instance (s : State) (a : Move) : Decidable (Fits s a) := by
  cases a <;> unfold Fits <;> infer_instance

structure Inv (s : State) : Prop where
  distinct : Distinct s.licenses
  jobs : ∀ j ∈ s.running, Distinct (j.2.getD [])
  used : ∀ name m, find s.licenses name = some m → m.used = s.held name

/-! ## What a move does -/

section Moves

variable {s s' : State} {name : Text} {jobId : Nat}

theorem start_eq {request : Option Tokens} {resv : Text → Nat}
    (h : system.step s (.start jobId request resv) = some s') :
    ∃ req req', ((buildLicenseList request).bind id).getD [] = req ∧ Distinct req ∧
      s'.running = s.running ++ [(jobId, req')] ∧ Distinct (req'.getD []) ∧
      (∀ name, amount name (req'.getD []) = amount name req) ∧
      s'.licenses.map License.name = s.licenses.map License.name ∧
      (∀ e ∈ req, ∃ m, find s.licenses e.name = some m ∧ u32 (e.total + m.used) ≤ m.total) ∧
      ∀ name, find s'.licenses name = if name ∈ req.map License.name then
        (find s.licenses name).map (.addUsed (amount name req)) else find s.licenses name := by
  obtain ⟨-, h⟩ := ite_none_left_eq_some.1 h
  obtain ⟨req, hreq, h⟩ := bind_eq_some_iff.1 h
  obtain ⟨htest, h⟩ := ite_none_right_eq_some.1 h
  obtain ⟨⟨l, req'⟩, hget, rfl⟩ := map_eq_some_iff.1 h
  rw [hreq, bind_some, id]
  unfold State.licenses
  cases req with
  | none =>
    cases hget
    exact ⟨[], none, rfl, distinct_nil, rfl, distinct_nil, fun _ => rfl, rfl,
      fun e he => absurd he (by simp), fun _ => by simp⟩
  | some req =>
    have hd : Distinct req := (buildLicenseList_spec hreq).1
    cases hl : s.licenseList with
    | none =>
      rw [hl] at hget
      obtain ⟨rfl, hget⟩ := ite_none_right_eq_some.1 hget
      cases hget
      exact ⟨[], some [], rfl, distinct_nil, rfl, distinct_nil, fun _ => rfl, rfl,
        fun e he => absurd he (by simp), fun _ => by simp⟩
    | some l0 =>
      rw [hl] at hget htest
      cases hget
      obtain ⟨h1, h2, h3⟩ := names_get l0 req
      refine ⟨req, some (getLoop l0 req).2, rfl, hd, rfl, ?_, amount_congr h2 h3, h1,
        testLoop_success (some.inj htest), find_get hd l0⟩
      rw [getD_some, Distinct, h2]
      exact hd

theorem finish_eq (hinv : Inv s) (h : system.step s (.finish jobId) = some s') :
    ∃ j ∈ s.running, s'.running = s.running.erase j ∧
      s'.licenses.map License.name = s.licenses.map License.name ∧
      ∀ name, find s'.licenses name = (find s.licenses name).map (.subUsed (amount name (j.2.getD []))) := by
  obtain ⟨j, hj, h⟩ := bind_eq_some_iff.1 h
  obtain ⟨l, hret, rfl⟩ := map_eq_some_iff.1 h
  have hmem := mem_of_find?_eq_some hj
  refine ⟨j, hmem, rfl, ?_⟩
  unfold State.licenses
  cases hreq : j.2 with
  | none =>
    rw [hreq] at hret
    cases hret
    exact ⟨rfl, fun name => find_return distinct_nil _ name⟩
  | some req =>
    have hd := hinv.jobs j hmem
    rw [hreq] at hret hd
    cases hl : s.licenseList with
    | none =>
      rw [hl] at hret
      obtain ⟨rfl, hret⟩ := ite_none_right_eq_some.1 hret
      cases hret
      exact ⟨rfl, fun name => rfl⟩
    | some l0 =>
      rw [hl] at hret
      cases hret
      exact ⟨names_return l0 req, find_return hd l0⟩

theorem update_eq {conf : Option Tokens} (hinv : Inv s) (h : system.step s (.update conf) = some s') :
    ∃ new, ((buildLicenseList conf).bind id).getD [] = new ∧ Distinct new ∧
      (∀ m ∈ new, m.used = 0) ∧ s'.running = s.running ∧
      s'.licenses.map License.name = new.map License.name ∧
      ∀ name, find s'.licenses name = (find new name).map fun m =>
        m.setUsed (((find s.licenses name).map License.used).getD m.used) := by
  obtain ⟨new, hnew, h⟩ := bind_eq_some_iff.1 h
  obtain ⟨l, hupd, rfl⟩ := map_eq_some_iff.1 h
  have hspec : Distinct (new.getD []) ∧ ∀ m ∈ new.getD [], m.used = 0 := by
    cases new with
    | none => exact ⟨distinct_nil, fun m hm => absurd hm (by simp)⟩
    | some new => exact buildLicenseList_spec hnew
  refine ⟨new.getD [], by rw [hnew]; rfl, hspec.1, hspec.2, rfl, ?_⟩
  have hd := hinv.distinct
  unfold State.licenses at hd ⊢
  cases hl : s.licenseList with
  | none =>
    rw [hl] at hupd
    cases hupd
    exact ⟨rfl, find_carry distinct_nil _⟩
  | some l0 =>
    rw [hl] at hupd hd
    cases new with
    | none =>
      obtain ⟨rfl, hupd⟩ := ite_none_right_eq_some.1 hupd
      cases hupd
      exact ⟨rfl, fun name => rfl⟩
    | some new =>
      cases hupd
      exact ⟨names_carry l0 new, find_carry hd new⟩

end Moves

/-! ## Conservation -/

section Conservation

variable {s s' : State} {a : Move} {name : Text}

theorem amount_of_mem {req : List License} {e : License} (hreq : Distinct req) (he : e ∈ req) :
    amount e.name req = e.total := by
  rw [amount, hreq.find_of_mem he]
  rfl

theorem start_used {req : List License} {m' : License} (hreq : Distinct req)
    (hfit : ∀ e ∈ req, ∀ m ∈ s.licenses, m.name = e.name → e.total + m.used < 2 ^ 32)
    (htest : ∀ e ∈ req, ∃ m, find s.licenses e.name = some m ∧ u32 (e.total + m.used) ≤ m.total)
    (hmem : name ∈ req.map License.name)
    (hm' : (find s.licenses name).map (.addUsed (amount name req)) = some m') :
    ∃ m, find s.licenses name = some m ∧ m'.used = m.used + amount name req ∧ m'.used ≤ m'.total := by
  obtain ⟨m, hm, rfl⟩ := map_eq_some_iff.1 hm'
  obtain ⟨e, he, rfl⟩ := mem_map.1 hmem
  obtain ⟨m1, hm1, hle⟩ := htest e he
  cases hm.symm.trans hm1
  obtain ⟨hml, hmn⟩ := mem_of_find hm
  have hlt := hfit e he m hml hmn
  refine ⟨m, hm, ?_⟩
  rw [amount_of_mem hreq he]
  unfold License.addUsed u32 at *
  rw [Nat.add_comm] at hlt hle
  rw [Nat.mod_eq_of_lt hlt] at hle ⊢
  exact ⟨rfl, hle⟩

theorem Inv.step (hinv : Inv s) (hfit : Fits s a) (hstep : system.step s a = some s') : Inv s' := by
  cases a with
  | start jobId request resv =>
    obtain ⟨req, req', hreq, hd, hrun, hd', hamount, hnames, htest, hfind⟩ := start_eq hstep
    rw [Fits, hreq] at hfit
    have hheld : ∀ name, s'.held name = s.held name + amount name req := by
      intro name
      simp only [State.held, hrun, map_append, sum_append, map_cons, map_nil,
        sum_cons, sum_nil, Nat.add_zero, hamount]
    refine ⟨?_, ?_, ?_⟩
    · rw [Distinct, hnames]
      exact hinv.distinct
    · rw [hrun]
      exact forall_mem_append.2 ⟨hinv.jobs, forall_mem_singleton.2 hd'⟩
    · intro name m' hm'
      rw [hfind] at hm'
      rw [hheld]
      split_ifs at hm' with hmem
      · obtain ⟨m, hm, hused, -⟩ := start_used hd hfit htest hmem hm'
        rw [hused, hinv.used _ m hm]
      · rw [amount_eq_zero hmem, Nat.add_zero]
        exact hinv.used name m' hm'
  | finish jobId =>
    obtain ⟨j, hj, hrun, hnames, hfind⟩ := finish_eq hinv hstep
    refine ⟨?_, ?_, ?_⟩
    · rw [Distinct, hnames]
      exact hinv.distinct
    · intro j' hj'
      rw [hrun] at hj'
      exact hinv.jobs j' (mem_of_mem_erase hj')
    · intro name m' hm'
      rw [hfind] at hm'
      obtain ⟨m, hm, rfl⟩ := map_eq_some_iff.1 hm'
      have hheld : amount name (j.2.getD []) + s'.held name = s.held name := by
        rw [State.held, hrun, State.held]
        exact (((perm_cons_erase hj).map fun j => amount name (j.2.getD [])).sum_eq).symm
      have hused := hinv.used name m hm
      have hle : amount name (j.2.getD []) ≤ m.used := by omega
      show (if amount name (j.2.getD []) ≤ m.used then _ else 0) = _
      rw [if_pos hle]
      omega
  | update conf =>
    obtain ⟨new, hnew, hd, hzero, hrun, hnames, hfind⟩ := update_eq hinv hstep
    rw [Fits, hnew] at hfit
    have hheld : ∀ name, s'.held name = s.held name := by
      intro name
      rw [State.held, hrun, State.held]
    refine ⟨?_, ?_, ?_⟩
    · rw [Distinct, hnames]
      exact hd
    · rw [hrun]
      exact hinv.jobs
    · intro name m' hm'
      rw [hfind] at hm'
      obtain ⟨m, hm, rfl⟩ := map_eq_some_iff.1 hm'
      obtain ⟨hmem, rfl⟩ := mem_of_find hm
      rw [hheld]
      show ((find s.licenses m.name).map License.used).getD m.used = _
      cases hold : find s.licenses m.name with
      | none =>
        rw [hfit m hmem hold]
        exact hzero m hmem
      | some m0 => exact hinv.used _ m0 hold

/-- More of a license is used than there is. -/
def Exceeds (name : Text) (s : State) : Prop :=
  ∃ m, find s.licenses name = some m ∧ m.total < m.used

/-- **Only a reconfiguration lets a count exceed the total**, by lowering the total below it. -/
theorem exceeds_turn (hinv : Inv s) (hfit : Fits s a) (hstep : system.step s a = some s')
    (hno : ¬Exceeds name s) (hex : Exceeds name s') :
    (∃ conf, a = .update conf) ∧ ∃ m m', find s.licenses name = some m ∧
      find s'.licenses name = some m' ∧ m.used ≤ m.total ∧ m'.used = m.used ∧ m'.total < m.used := by
  obtain ⟨m', hm', hlt⟩ := hex
  cases a with
  | start jobId request resv =>
    obtain ⟨req, req', hreq, hd, -, -, -, -, htest, hfind⟩ := start_eq hstep
    rw [Fits, hreq] at hfit
    rw [hfind] at hm'
    split_ifs at hm' with hmem
    · obtain ⟨-, -, -, hle⟩ := start_used hd hfit htest hmem hm'
      omega
    · exact absurd ⟨m', hm', hlt⟩ hno
  | finish jobId =>
    obtain ⟨j, -, -, -, hfind⟩ := finish_eq hinv hstep
    rw [hfind] at hm'
    obtain ⟨m, hm, rfl⟩ := map_eq_some_iff.1 hm'
    refine absurd ⟨m, hm, ?_⟩ hno
    have hle : (m.subUsed (amount name (j.2.getD []))).used ≤ m.used := by
      unfold License.subUsed
      dsimp only
      split_ifs <;> omega
    exact hlt.trans_le hle
  | update conf =>
    obtain ⟨new, -, -, hzero, -, -, hfind⟩ := update_eq hinv hstep
    have hm := hm'
    rw [hfind] at hm
    obtain ⟨m1, hm1, rfl⟩ := map_eq_some_iff.1 hm
    refine ⟨⟨conf, rfl⟩, ?_⟩
    cases hold : find s.licenses name with
    | none =>
      -- a new name is not used
      rw [hold] at hlt
      have hused := hzero m1 (mem_of_find hm1).1
      have hlt : m1.total < m1.used := hlt
      omega
    | some m =>
      rw [hold] at hlt hm'
      have hle : m.used ≤ m.total := Nat.le_of_not_lt fun h => hno ⟨m, hold, h⟩
      exact ⟨m, _, rfl, hm', hle, rfl, hlt⟩

end Conservation

/-- **Licenses are conserved.**  In every run whose moves fit, for every configured license: the used
    count is the sum of what the running jobs hold, and if it exceeds the total, then a
    reconfiguration has lowered the total below the count, which has exceeded the total since. -/
theorem licenses_conserved (conf : Option Tokens) (s₀ s : State) (hinit : licenseInit conf = some s₀)
    (hrun : system.Reach Fits s₀ s) (m : License) (hm : m ∈ s.licenses) :
    m.used = s.held m.name ∧
    (m.total < m.used → ∃ t conf' u m₁ m₂, system.Reach Fits s₀ t ∧
      system.step t (.update conf') = some u ∧
      m₁ ∈ t.licenses ∧ m₁.name = m.name ∧ m₁.used ≤ m₁.total ∧
      m₂ ∈ u.licenses ∧ m₂.name = m.name ∧ m₂.used = m₁.used ∧ m₂.total < m₁.used ∧
      system.Reach (fun x a => Fits x a ∧ Exceeds m.name x) u s) := by
  obtain ⟨l, hl, rfl⟩ := map_eq_some_iff.1 hinit
  have hstart : Inv ⟨l, []⟩ ∧ ∀ m ∈ (⟨l, []⟩ : State).licenses, m.used = 0 := by
    cases l with
    | none => exact ⟨⟨distinct_nil, by simp, by simp [State.licenses, find]⟩, by simp [State.licenses]⟩
    | some l =>
      obtain ⟨hd, hzero⟩ := buildLicenseList_spec hl
      exact ⟨⟨hd, by simp, fun name m hm => hzero m (mem_of_find hm).1⟩, hzero⟩
  have hinv : ∀ s, system.Reach Fits ⟨l, []⟩ s → Inv s := fun s hrun =>
    hrun.invariant hstart.1 fun _ _ _ hs hfit hstep => hs.step hfit hstep
  have hfind := (hinv s hrun).distinct.find_of_mem hm
  refine ⟨(hinv s hrun).used _ m hfind, fun hlt => ?_⟩
  have hno : ¬Exceeds m.name ⟨l, []⟩ := by
    rintro ⟨m₀, hm₀, hlt₀⟩
    rw [hstart.2 m₀ (mem_of_find hm₀).1] at hlt₀
    exact absurd hlt₀ (Nat.not_lt_zero _)
  obtain ⟨t, a, u, hr, hp, hstep, hnot, hex, hsince⟩ := hrun.exists_turn hno ⟨m, hfind, hlt⟩
  obtain ⟨⟨conf', rfl⟩, m₁, m₂, hm₁, hm₂, hle, hused, hlow⟩ :=
    exceeds_turn (hinv t hr) hp hstep hnot hex
  exact ⟨t, conf', u, m₁, m₂, hr, hstep, (mem_of_find hm₁).1, (mem_of_find hm₁).2, hle,
    (mem_of_find hm₂).1, (mem_of_find hm₂).2, hused, hlow, hsince⟩

/-- A job takes three of four licenses, and then only two are configured. -/
theorem licenses_conserved_lowered :
    ∃ s₀ s, licenseInit (some [("a".toList, 4)]) = some s₀ ∧ system.Reach Fits s₀ s ∧
      ⟨"a".toList, 2, 3⟩ ∈ s.licenses ∧ s.held "a".toList = 3 ∧
      ∃ t conf, system.Reach Fits s₀ t ∧ ∃ u, system.step t (.update conf) = some u ∧
        system.Reach (fun x a => Fits x a ∧ Exceeds "a".toList x) u s := by
  have hrun : system.Reach Fits ⟨some [⟨"a".toList, 4, 0⟩], []⟩ _ :=
    .of_run
      [.start 1 (some [("a".toList, 3)]) fun _ => 0, .update (some [("a".toList, 2)])]
      .start (by decide) rfl
  have h := licenses_conserved (some [("a".toList, 4)]) _ _ rfl hrun ⟨"a".toList, 2, 3⟩ (by decide)
  obtain ⟨t, conf, u, -, -, hr, hstep, -, -, -, -, -, -, -, hsince⟩ := h.2 (by decide)
  exact ⟨_, _, rfl, hrun, by decide, h.1.symm, t, conf, hr, u, hstep, hsince⟩

/-- **A license that is configured again.**  Job 1 holds three licenses; the name is dropped and
    configured again, and none of them is counted. -/
theorem readded_license_unused :
    (licenseInit (some [("a".toList, 4)])).bind (fun s₀ => system.run s₀
      [.start 1 (some [("a".toList, 3)]) fun _ => 0, .update (some [("b".toList, 1)]),
        .update (some [("a".toList, 4)])]) =
      some ⟨some [⟨"a".toList, 4, 0⟩], [(1, some [⟨"a".toList, 3, 3⟩])]⟩ := by
  decide

/-- A count may also wrap: two requests of three thousand million are granted out of four. -/
example : (licenseInit (some [("a".toList, 4000000000)])).bind (fun s₀ => system.run s₀
      [.start 1 (some [("a".toList, 3000000000)]) fun _ => 0,
        .start 2 (some [("a".toList, 3000000000)]) fun _ => 0]) =
    some ⟨some [⟨"a".toList, 4000000000, 1705032704⟩],
      [(1, some [⟨"a".toList, 3000000000, 3000000000⟩]), (2, some [⟨"a".toList, 3000000000, 3000000000⟩])]⟩ := by
  decide

end Slurmpp.Licenses
