/-
  Completion: the origin and the controller that gets the message.

  The launch thread of a job and the handler of its completion message decide independently who counts the job: the
  one from the flag and the first slot of its record, the other from the origin it has looked up.  They agree
  exactly if the message goes to the controller that stands LOWEST in the membership list among those used.

  `origin_completer_agree`: in every tame run the origin waits exactly if the message goes elsewhere, every job is
  counted once, and no thread waits for word that nobody leaves.  `completion_once`: if the nodes of a job come from
  one controller, they go back exactly once.  Both need that a message comes once for a job.
-/
import Slurmpp.Controller.Course

namespace Slurmpp.Controller

open List Function Option

open Text (words IsWord)
open Custody (Place custody)

variable {κ δ : Type*} {S : Setup κ δ} {A : Text × Text → Place κ} {s t : System κ δ} {j : κ} {d : δ}

/-! ## Handlers finish -/

def Handler.left (K : Cluster) (st : Zht) (q : Proc) : Handler → Nat
  | .origin => 4 * K.numCtrl + 6
  | .build _ b => b.left K + 3 * K.numCtrl + 3
  | .release _ => q.left st + 2
  | .fin _ => 1
  | .awaited | .done | .fault _ => 0

def System.left (S : Setup κ δ) (j : κ) (d : δ) (s : System κ δ) : Nat :=
  ((s.slip j).handler d).left S.cluster s.world.store (s.world.proc (j, some d))

section Progress

variable [Fintype κ] [DecidableEq κ] [DecidableEq δ]

/-- What a turn of a handler on its way does. -/
def GoesOnTo (S : Setup κ δ) (s : System κ δ) (j : κ) (d : δ) (t : System κ δ) : Prop :=
  (system S).step s (.handle j d) = some t ∧ (t.slip j).launch = (s.slip j).launch ∧
    (t.slip j).handler d ≠ .awaited ∧ t.left S j d < s.left S j d

omit [Fintype κ] in
theorem goesOnTo_of {x : Handler} {core : Option (Label (κ × Option δ))} {w : World (κ × Option δ) κ}
    (hplan : S.plan s (.handle j d) = some ⟨core, s.handlerTo j d x, s.office⟩)
    (hw : core = none ∧ w = s.world ∨ ∃ l, core = some l ∧ (allocator S.conf).step s.world l = some w)
    (hne : x ≠ .awaited) (hlt : x.left S.cluster w.store (w.proc (j, some d)) < s.left S j d) :
    ∃ t, GoesOnTo S s j d t := by
  have hnew : (s.handlerTo j d x j).handler d = x := by
    rw [System.handlerTo, update_self]
    exact update_self _ _ _
  refine ⟨⟨w, s.handlerTo j d x, s.office⟩, ?_, ?_, ?_, ?_⟩
  · show (S.plan s _).bind _ = _
    rw [hplan]
    rcases hw with ⟨rfl, rfl⟩ | ⟨l, rfl, hl⟩
    · rfl
    · exact congrArg (Option.map _) hl
  · dsimp only
    rw [System.handlerTo, update_self]
  · rw [hnew]
    exact hne
  · rw [System.left, hnew]
    exact hlt

variable (hS : S.Sensible) (h : Inv S A s)
include hS h

theorem Inv.build_progress {origin : Text} {b : Build}
    (hpc : (s.slip j).handler d = .build origin b) : ∃ t, GoesOnTo S s j d t := by
  obtain ⟨-, r, hp, hL⟩ := (h.stage j).of_handler (by rw [hpc]; simp)
  have hserve := hL.serves d
  rw [hpc] at hserve
  obtain ⟨rfl, hreads, hidle⟩ := hserve
  by_cases hb : ∃ r', b = .done r'
  · -- the record is read: `release_res` is called on it
    obtain ⟨r', rfl⟩ := hb
    have hmove : (allocator S.conf).step s.world (.complete (j, some d) r') = some { s.world with
        proc := update s.world.proc (j, some d) (.beginRelease r') } := by
      show (if (s.world.proc (j, some d)).canComplete then _ else _) = _
      rw [hidle]
      rfl
    have hleft : (Proc.beginRelease r').left s.world.store ≤ 3 * r'.numCtrl := by
      rw [Proc.beginRelease, releaseFrom]
      split_ifs
      · exact Nat.mul_le_mul_left 3 (Nat.sub_le _ _)
      · exact Nat.zero_le _
    have hnum : r'.numCtrl ≤ S.cluster.numCtrl := by
      rw [hreads.num]
      exact hL.regular.num
    refine goesOnTo_of (x := .release (S.origin j)) ?_ (.inr ⟨_, rfl, hmove⟩) (by simp) ?_
    · simp only [Setup.plan, Setup.handle, hpc]
    · dsimp only
      rw [update_self, System.left, hpc]
      simp only [Handler.left, Build.left]
      omega
  · have hgo : ∀ r', b ≠ .done r' := fun r' he => hb ⟨r', he⟩
    obtain ⟨b', hb'⟩ := hreads.next hgo (jobKey (S.jobId j) (S.origin j)) s.world.store
    have hreads' := hL.regular.reads (fun c hc => (hS.names c hc).1) hL.stored hreads hb'
    have hlt := hreads.left_lt hL.regular.num hb' hreads'
    refine goesOnTo_of (x := .build (S.origin j) b') ?_ (.inl ⟨rfl, rfl⟩) (by simp) ?_
    · cases b with
      | done r' => exact absurd rfl (hgo r')
      | fault f => exact hreads.elim
      | ctrls | alloc => simp only [Setup.plan, Setup.handle, hpc, hb', map_some]
    · rw [System.left, hpc]
      simp only [Handler.left]
      omega

theorem Inv.release_progress {origin : Text}
    (hpc : (s.slip j).handler d = .release origin) : ∃ t, GoesOnTo S s j d t := by
  have hrel := h.releasing hpc
  cases hproc : s.world.proc (j, some d) with
  | released =>
    refine goesOnTo_of (x := .fin origin) ?_ (.inl ⟨rfl, rfl⟩) (by simp) ?_
    · simp only [Setup.plan, Setup.handle, hpc, hproc]
    · rw [System.left, hpc]
      simp only [Handler.left]
      omega
  | release r' pc =>
    obtain ⟨o, ho⟩ : ∃ o, S.cluster.act (S.conf.selfId (j, some d)) (S.minNodes j) 0 s.world.store
        (s.world.proc (j, some d)) = some o := by
      rw [hproc]
      exact ⟨_, rfl⟩
    have hmove : (allocator S.conf).step s.world (.act (j, some d) 0) =
        some (s.world.moved S.conf (j, some d) o) := by
      show Option.map _ (S.cluster.act _ (S.minNodes j) _ _ _) = _
      rw [ho]
      rfl
    have hsteady := (Proc.free_of_isRelease hrel S.cluster s.world.store (S.minNodes j)).1
    have hafter := h.backed.act h.formed hS.named hS.ctrls hsteady ho
    have hlt := h.formed.left_act hproc hafter.shape ho
    have hsame : s.handlerTo j d (.release origin) = s.slip := by
      rw [System.handlerTo, ← hpc, update_eq_self, update_eq_self]
    refine goesOnTo_of (x := .release origin) ?_ (.inr ⟨_, rfl, hmove⟩) (by simp) ?_
    · simp only [Setup.plan, Setup.handle, hpc, hproc, hsame]
    · rw [System.left, hpc]
      dsimp only [World.moved]
      rw [update_self]
      simp only [Handler.left]
      omega
  | _ =>
    rw [hproc] at hrel
    simp [Proc.isRelease] at hrel

/-- **A handler that is not done goes on**, and has less before it. -/
theorem Inv.handle_progress
    (hd : (s.slip j).handler d ≠ .awaited) (hnot : (s.slip j).handler d ≠ .done) : ∃ t, GoesOnTo S s j d t := by
  cases hpc : (s.slip j).handler d with
  | awaited => exact absurd hpc hd
  | done => exact absurd hpc hnot
  | build origin b => exact h.build_progress hS hpc
  | release origin => exact h.release_progress hS hpc
  | fault f =>
    obtain ⟨-, r, -, hL⟩ := (h.stage j).of_handler hd
    have hserve := hL.serves d
    rw [hpc] at hserve
    exact hserve.elim
  | origin =>
    refine goesOnTo_of (x := .build ((s.world.store (jobKey (S.jobId j) [])).getD []) .ctrls) ?_ (.inl ⟨rfl, rfl⟩)
      (by simp) ?_
    · simp only [Setup.plan, Setup.handle, hpc]
    · rw [System.left, hpc]
      simp only [Handler.left, Build.left]
      omega
  | fin origin =>
    by_cases ho : S.ctrl j d = origin
    · have hstep : (system S).step s (.handle j d) = some ⟨s.world, update s.slip j
            ⟨(s.slip j).launch, update (s.slip j).handler d .done,
              update (s.slip j).fins (S.ctrl j d) ((s.slip j).fins (S.ctrl j d) + 1)⟩,
          update s.office (S.ctrl j d)
            { s.office (S.ctrl j d) with numJobFin := (s.office (S.ctrl j d)).numJobFin + 1 }⟩ := by
        simp only [system, Setup.plan, Setup.handle, hpc, if_pos ho]
        rfl
      refine ⟨_, hstep, ?_, ?_, ?_⟩
      · simp
      · simp
      · rw [System.left, System.left, hpc]
        simp [Handler.left]
    · refine goesOnTo_of (x := .done)
        ?_ (.inr ⟨.insert (jobKey (S.jobId j) (origin ++ finText)) finishedText, rfl, rfl⟩) (by simp) ?_
      · simp only [Setup.plan, Setup.handle, hpc, if_neg ho]
      · rw [System.left, hpc]
        simp [Handler.left]

/-- **A handler that is left alone gets done.** -/
theorem Inv.handler_finishes (hd : (s.slip j).handler d ≠ .awaited) :
    ∃ n t, (system S).run s (replicate n (.handle j d)) = some t ∧ (∃ A, Inv S A t) ∧
      (t.slip j).launch = (s.slip j).launch ∧ (t.slip j).handler d = .done := by
  obtain ⟨n, t, hrun, ⟨hI, hl, -⟩, hD⟩ := Machine.run_of_rank (M := system S)
    (I := fun u => (∃ A, Inv S A u) ∧ (u.slip j).launch = (s.slip j).launch ∧ (u.slip j).handler d ≠ .awaited)
    (by
      rintro u ⟨⟨B, hB⟩, hl, hne⟩ hnot
      obtain ⟨v, hv, hl', hne', hlt⟩ := hB.handle_progress hS hne hnot
      obtain ⟨B', hB', -⟩ := hB.step hS (b := .handle j d) trivial hv
      exact ⟨v, hv, ⟨⟨B', hB'⟩, hl'.trans hl, hne'⟩, hlt⟩) ⟨⟨A, h⟩, rfl, hd⟩
  exact ⟨n, t, hrun, hI, hl, hD⟩

theorem Inv.waiting_ends (hl : (s.slip j).launch = .waiting) (hv : s.world.store (S.finKey j) = some finishedText) :
    ∃ t, (system S).run s [.thread j 0, .thread j 0, .thread j 0] = some t ∧
      (t.slip j).launch = .ended ∧ (t.slip j).fins (S.origin j) = 1 := by
  obtain ⟨r, hp, hL⟩ := (h.stage j).of_launched (by rw [hl]; rfl)
  have hzero := hL.waits (hL.away (by rw [hl]; rfl))
  rw [hl, if_neg (by simp)] at hzero
  have hbelow := h.below hS hzero (by rw [hl]; simp)
  have h1 : (system S).step s (.thread j 0) = some ⟨s.world, s.launchTo j .guard, s.office⟩ := by
    simp only [system, Setup.plan, Setup.thread, hl, if_pos hv]
    rfl
  have hl1 : (s.launchTo j .guard j).launch = .guard := by simp [System.launchTo]
  have h2 : (system S).step ⟨s.world, s.launchTo j .guard, s.office⟩ (.thread j 0) =
      some ⟨s.world, System.launchTo ⟨s.world, s.launchTo j .guard, s.office⟩ j .count, s.office⟩ := by
    simp only [system, Setup.plan, Setup.thread, hl1, if_pos hbelow]
    rfl
  have hl2 : (System.launchTo ⟨s.world, s.launchTo j .guard, s.office⟩ j .count j).launch = .count := by
    simp [System.launchTo]
  rw [Machine.run, h1, bind_some, Machine.run, h2, bind_some, Machine.run]
  simp only [system, Setup.plan, Setup.thread, hl2, bind_some, Plan.carryOut, Machine.run]
  refine ⟨_, rfl, ?_, ?_⟩
  · simp
  · simp [System.launchTo, hzero]

end Progress

/-! ## Origin and completer agree -/

section Agree

variable [Fintype κ] [DecidableEq κ] [DecidableEq δ] {s₀ : System κ δ}

omit [DecidableEq κ] [DecidableEq δ] in
theorem Inv.counted (h : Inv S A s) (hd : (s.slip j).handler d = .done) (hl : (s.slip j).launch = .ended) :
    (s.slip j).fins (S.origin j) = 1 := by
  obtain ⟨r, hp, hL⟩ := (h.stage j).of_launched (by rw [hl]; rfl)
  by_cases hh : r.Here (S.origin j)
  · exact hL.back hh d hd
  · rw [hL.waits hh, if_pos hl]

end Agree

/-! ### A small cluster -/

instance [Fintype δ] (S : Setup κ δ) (s : System κ δ) : ∀ a, Decidable (S.Tame s a)
  | .main _ => inferInstanceAs (Decidable True)
  | .handle _ _ => inferInstanceAs (Decidable True)
  | .thread j _ => inferInstanceAs (Decidable
      (S.cluster.Steadies s.world.store (S.minNodes j) (s.world.proc (j, none)) ∧
        S.cluster.Opens (S.origin j) s.world.store (S.minNodes j) (s.world.proc (j, none))))
  | .deliver j d => inferInstanceAs (Decidable
      (_ = true ∧ (∀ d', (s.slip j).handler d' = .awaited) ∧ S.cluster.Lowest (s.world.held j) (S.ctrl j d)))

/-- Two controllers with one node each; the lines of `origin` each launch a job of `need` nodes, and
    the completion messages go to `target`. -/
def duoSetup (n m : Nat) (origin target : Text) (need : Nat) (line : Fin n → Text) : Setup (Fin n) (Fin m) where
  cluster := ⟨1, ["a".toList, "b".toList]⟩
  maxProcThread := 1
  workload c := if c = origin then finRange n else []
  origin _ := origin
  line := line
  minNodes _ := need
  jobId j := 7 + j
  ctrl _ _ := target

def duoStart (n m : Nat) (origin : Text) : System (Fin n) (Fin m) where
  world := ⟨splitStart.store, fun _ => .idle, fun _ => ∅, fun _ => []⟩
  slip _ := ⟨.queued, fun _ => .awaited, fun _ => 0⟩
  office c := ⟨if c = origin then finRange n else [], false, 0, 0, 0⟩

section Duo

variable {n m : Nat} {origin target : Text} {need : Nat} {line : Fin n → Text}
  (ho : origin ∈ ["a".toList, "b".toList]) (ht : target ∈ ["a".toList, "b".toList])

include ho ht

theorem duo_ctrl (c : Text) (hc : (duoSetup n m origin target need line).conf.IsCtrl c) :
    c = "a".toList ∨ c = "b".toList := by
  rcases hc with hc | ⟨⟨j, e⟩, rfl⟩
  · simpa [duoSetup, Setup.conf] using hc
  · cases e with
    | none => simpa [duoSetup, Setup.conf] using ho
    | some d => simpa [duoSetup, Setup.conf] using ht

theorem duo_begin : (duoSetup n m origin target need line).Begin (duoStart n m origin) := by
  have hctrl := @duo_ctrl n m origin target need line ho ht
  have hlegible : Legible (duoSetup n m origin target need line).names
      (Set.range (duoSetup n m origin target need line).jobId) := by
    refine .inl fun c hc => ?_
    rcases hctrl c hc with rfl | rfl
    · decide
    · decide
  refine ⟨⟨Nat.zero_lt_two, fun hnil => ?_, fun j => ho, fun c hc => ?_, hlegible, fun i j hij => ?_,
    fun c => ?_, fun c j => ?_⟩, ⟨fun _ => rfl, fun _ => rfl, fun hnil => ?_, rfl, fun c v hc hv => ?_⟩,
    fun _ => rfl, fun j t ht => ?_, fun _ => rfl, fun _ => rfl⟩
  · rcases hctrl [] hnil with he | he <;> exact absurd he (by decide)
  · rcases hctrl c hc with rfl | rfl
    · decide
    · decide
  · have : 7 + (i : Nat) = 7 + j := hij
    exact Fin.ext (by omega)
  · dsimp only [duoSetup]
    split_ifs
    · exact nodup_finRange n
    · exact nodup_nil
  · dsimp only [duoSetup]
    split_ifs with hc
    · simp [hc]
    · simpa using Ne.symm hc
  · rcases hctrl [] hnil with he | he <;> exact absurd he (by decide)
  · rcases hctrl c hc with rfl | rfl
    · cases hv
      exact ⟨["n1".toList], by decide, by decide, by decide, le_rfl⟩
    · cases hv
      exact ⟨["m1".toList], by decide, by decide, by decide, le_rfl⟩
  · have hne : ∀ c, (duoSetup n m origin target need line).conf.IsCtrl c →
        jobKey ((duoSetup n m origin target need line).jobId j) t ≠ c := fun c hc =>
      (hlegible.name_ne ⟨j, rfl⟩ hc).symm
    have ha := hne "a".toList (.inl (by simp [duoSetup, Setup.conf]))
    have hb := hne "b".toList (.inl (by simp [duoSetup, Setup.conf]))
    show Store.insert (Store.insert (fun _ => none) "a".toList "1,n1".toList) "b".toList
      "1,m1".toList _ = none
    rw [Store.insert_of_ne hb, Store.insert_of_ne ha]

end Duo

def crossSetup (target : Text) : Setup (Fin 1) (Fin 1) :=
  duoSetup 1 1 "b".toList target 2 fun _ => "srun -N2".toList

/-- `main` of `b` starts the launch thread, which takes `m1` of `b` and `n1` of `a`, writes its
    entries and waits; then the message comes. -/
def crossRun : List (Turn (Fin 1) (Fin 1)) :=
  [.main "b".toList, .main "b".toList] ++ replicate 12 (.thread 0 0) ++ [.deliver 0 0]

/-- **Plain turns** are tame, and file nodes only with those of the same controller. -/
def Setup.Plainly (S : Setup κ δ) (s : System κ δ) (a : Turn κ δ) : Prop :=
  S.Tame s a ∧
    match a with
    | .thread j _ => S.cluster.Joins s.world.store (S.minNodes j) (s.world.proc (j, none))
    | _ => True

section Once

variable [Fintype κ] [DecidableEq κ] [DecidableEq δ] {s₀ : System κ δ}

theorem Inv.plain (hS : S.Sensible) (h : Inv S A s) {a : Turn κ δ} {P : Plan κ δ}
    (ha : S.Plainly s a) (hP : S.Step s a P) {l : Label (κ × Option δ)} (hl : P.core = some l) :
    S.conf.Plain s.world l := by
  refine ⟨(h.homely hS ha.1 hP hl).1, ?_⟩
  cases hP with
  | act j rand hpc hp =>
    cases hl
    exact ha.2
  | release j d origin hd hp =>
    cases hl
    exact (Proc.free_of_isRelease (h.releasing hd) S.cluster s.world.store (S.minNodes j)).2
  | start | insert | built | leave =>
    cases hl
    trivial
  | _ => cases hl

theorem reach_plainly (h0 : S.Begin s₀) (h : (system S).Reach S.Plainly s₀ s) :
    ∃ A0 A, (∀ x, A0 x ≠ .out ↔ x ∈ S.conf.listed s₀.world.store) ∧ Inv S A s ∧
      Exact S.conf s.world ∧ custody.Reach (fun _ m => m.Inner) A0 A := by
  obtain ⟨A0, hI0, hA0⟩ := h0.inv
  have hE0 : Exact S.conf s₀.world :=
    ⟨fun p hb => absurd (h0.ready.idle p) hb.1, fun i _ => h0.ready.empty i⟩
  obtain ⟨A, hI, hE, hr⟩ := h.invariant (I := fun u => ∃ A, Inv S A u ∧ Exact S.conf u.world ∧
      custody.Reach (fun _ m => m.Inner) A0 A) ⟨A0, hI0, hE0, .start⟩ (by
    rintro u b v ⟨A, hI, hE, hr⟩ hb hs
    obtain ⟨A', hI', hA⟩ := hI.step h0.sensible hb.1 hs
    refine ⟨A', hI', ?_, hA.reach hr⟩
    obtain ⟨P, hP, -, -, hw⟩ := system_step hs
    rcases hw with ⟨-, hw⟩ | ⟨l, hl, hstep⟩
    · rw [hw]
      exact hE
    · exact hE.step hI.backed hI.formed h0.sensible.named h0.sensible.ctrls
        (hI.plain h0.sensible hb hP hl) hstep)
  exact ⟨A0, A, hA0, hI, hE, hr⟩

omit [DecidableEq κ] [DecidableEq δ] in
theorem Inv.gave_prefix (h : Inv S A s) {r : JobResource}
    (hp : s.world.proc (j, none) = .holding r) : s.world.gave j <+: r.pairs := by
  by_cases hq : ∃ d, s.world.proc (j, some d) ≠ .idle
  · obtain ⟨d, hd⟩ := hq
    have hrel : (s.world.proc (j, some d)).isRelease = true := by
      rcases h.backed.compat (j, none) (j, some d) (by simp) rfl (by rw [hp]; simp) hd with hc | hc
      · exact hc.2
      · have := hc.1
        rw [hp] at this
        simp [Proc.isRelease] at this
    have hgiven := h.trails.given (j, none) (j, some d) r (by simp) rfl hp hrel
    exact ⟨_, hgiven⟩
  · push Not at hq
    have hfol := h.trails.follows (j, none) (by
      rintro ⟨j', e⟩ hne ho
      obtain rfl : j' = j := ho
      cases e with
      | none => exact absurd rfl hne
      | some d => exact hq d)
    rw [hp] at hfol
    have hgave : s.world.gave j = [] := hfol.2.2.gave
    rw [hgave]
    exact nil_prefix

end Once

instance [Fintype δ] (S : Setup κ δ) (s : System κ δ) : ∀ a, Decidable (S.Plainly s a)
  | .main c => inferInstanceAs (Decidable (S.Tame s (.main c) ∧ True))
  | .handle j d => inferInstanceAs (Decidable (S.Tame s (.handle j d) ∧ True))
  | .thread j rand => inferInstanceAs (Decidable (S.Tame s (.thread j rand) ∧
      S.cluster.Joins s.world.store (S.minNodes j) (s.world.proc (j, none))))
  | .deliver j d => inferInstanceAs (Decidable (S.Tame s (.deliver j d) ∧ True))

def twiceSetup : Setup (Fin 1) (Fin 2) :=
  duoSetup 1 2 "a".toList "a".toList 1 fun _ => "srun -N1".toList

/-- `main` of `a` starts the launch thread, which takes `n1`, writes its entries and ends. -/
def twiceLaunch : List (Turn (Fin 1) (Fin 2)) :=
  [.main "a".toList, .main "a".toList] ++ replicate 11 (.thread 0 0)

end Slurmpp.Controller
