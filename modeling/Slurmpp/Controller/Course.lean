/-
  Every tame turn keeps every job on its course.  The step lemma `Inv.step` has three parts:

  1. a tame turn makes HOMELY moves of the allocator (`Inv.homely`), so the allocator's own invariants hold on;
  2. such a move touches the threads of one job, and the store only under pool keys or that job's own keys, so all
     other stages stay (`Inv.others`);
  3. the job whose turn it is goes from one stage to the next (`Inv.stages`).

  All jobs meet only in the test of `check_job_belong` that not all jobs are counted yet: `Inv.below`.
-/
import Slurmpp.Controller.Stage

namespace Slurmpp.Controller

open List Function

open Text (words IsWord)
open Custody (Place)

/-! ## Frames -/

section Frames

variable {π ι : Type*} {C : Conf π ι} {A : Text × Text → Place ι} {s : World π ι} {p : π}

theorem Conf.IsCtrl.insert_other {c k : Text} (hc : C.IsCtrl c) (hk : ¬C.IsCtrl k) (st : Zht)
    (v : Text) : st.insert c v k = st k := by
  apply Store.insert_of_ne
  rintro rfl
  exact hk hc

theorem Formed.rel_store (h : Formed C A s) {r : JobResource} {pc : Rel}
    {o : Out (Except Fault (Option Rel))} (hclaim : (s.proc p).claim = r.pairsFrom pc.slot)
    (hin : pc.slot < r.numCtrl) (hne : ∀ i seen, pc = .swap i seen → r.slotPairs i ≠ [])
    (hr : C.cluster.RelStep r s.store pc o) {k : Text} (hk : ¬C.IsCtrl k) : o.store k = s.store k := by
  cases hr with
  | gave i seen new hm hs =>
    obtain ⟨x, hx⟩ := exists_mem_of_ne_nil _ (hne i seen rfl)
    have hheld : x ∈ s.held (C.owner p) := by
      apply h.kept.claims.backed p x
      rw [hclaim, JobResource.pairsFrom_of_lt hin]
      exact mem_append_left _ hx
    have hctrl := h.kept.books.home _ x hheld
    rw [(mem_under.1 hx).1] at hctrl
    exact hctrl.insert_other hk _ _
  | _ => rfl

/-- **A thread writes under controllers' keys only.** -/
theorem Formed.act_store (h : Formed C A s) {rand : Nat} {o : Out Proc}
    (ho : C.cluster.act (C.selfId p) (C.need p) rand s.store (s.proc p) = some o) {k : Text}
    (hk : ¬C.IsCtrl k) : o.store k = s.store k := by
  have hst := Cluster.act_step ho
  have hok := h.kept.claims.ok p
  have hfit := h.fit p
  generalize hq : s.proc p = q at hst hok hfit
  cases hst with
  | took | spilled =>
    exact hok.2.insert_other hk _ _
  | abandon r pc o hr =>
    refine h.rel_store (by rw [hq, Proc.claim]) hok.2 (fun i seen he => ?_) hr hk
    subst he
    exact hfit.2.1
  | release r pc o hr =>
    refine h.rel_store (by rw [hq, Proc.claim]) hok (fun i seen he => ?_) hr hk
    subst he
    exact hfit.1 i hok
  | _ => rfl

end Frames

variable {κ δ : Type*} {S : Setup κ δ} {A : Text × Text → Place κ} {s t : System κ δ} {j : κ} {d : δ}

/-! ## The invariant -/

/-- **All that is known of a state.** -/
structure Inv [Fintype κ] (S : Setup κ δ) (A : Text × Text → Place κ) (s : System κ δ) : Prop where
  formed : Formed S.conf A s.world
  backed : Backed S.conf s.world
  trails : Trails S.conf s.world
  signed : ∀ p, S.conf.Signed (s.world.proc p)
  accounts : Accounts S s
  stage : ∀ j, Stage S j s.world.store (fun e => s.world.proc (j, e)) (s.slip j)

theorem Setup.Sensible.not_isCtrl (hS : S.Sensible) (t : Text) :
    ¬S.conf.IsCtrl (jobKey (S.jobId j) t) ∧ jobKey (S.jobId j) t ≠ [] :=
  ⟨fun hc => hS.legible.name_ne ⟨j, rfl⟩ hc rfl, fun he =>
    Text.ofNat_ne_nil _ (append_eq_nil_iff.1 he).1⟩

theorem Quiet.idle {a : Slip δ} (hq : Quiet (fun e => s.world.proc (j, e)) a) :
    ∀ p, p ≠ (j, none) → S.conf.owner p = S.conf.owner (j, none) → s.world.proc p = .idle := by
  rintro ⟨j', e⟩ hne ho
  obtain rfl : j' = j := ho
  cases e with
  | none => exact absurd rfl hne
  | some d => exact (hq d).2

theorem Proc.free_of_isRelease {q : Proc} (h : q.isRelease = true) (K : Cluster) (st : Zht)
    (need : Nat) : K.Steadies st need q ∧ K.Joins st need q := by
  cases q with
  | release | released => exact ⟨trivial, trivial⟩
  | _ => cases h

section Facts

variable [Fintype κ]

theorem Inv.returned (h : Inv S A s) (hq : Quiet (fun e => s.world.proc (j, e)) (s.slip j))
    {r : JobResource} (hp : s.world.proc (j, none) = .holding r) :
    r.Regular S.cluster S.names ∧ r.Tidy S.cluster ∧ r.Clean ∧
      r.Trail S.cluster (S.origin j) (s.world.held j) (s.world.gave j) := by
  have hfol := h.trails.follows (j, none) (Quiet.idle hq)
  have hok := h.formed.kept.claims.ok (j, none)
  have hsig := h.signed (j, none)
  rw [hp] at hfol hok hsig
  obtain ⟨hclean, -, htrail⟩ := hfol
  exact ⟨JobResource.Signed.regular hsig hok hclean, hok, hclean, htrail⟩

/-- **"I am here" means that the lowest controller is the origin.** -/
theorem Inv.here_iff (hS : S.Sensible) (h : Inv S A s)
    (hq : Quiet (fun e => s.world.proc (j, e)) (s.slip j)) {r : JobResource}
    (hp : s.world.proc (j, none) = .holding r) {c : Text}
    (hc : S.cluster.Lowest (s.world.held j) c) : r.Here (S.origin j) ↔ c = S.origin j := by
  obtain ⟨-, ht, hclean, htrail⟩ := h.returned hq hp
  have hne : S.origin j ≠ [] := fun he => hS.named (he ▸ S.origin_mem_names j)
  rw [← htrail.lowest_iff (hS.member j) hne hc, JobResource.Here]
  refine and_congr_right fun _ => ?_
  by_cases h0 : r.ctrlIds2.getD 0 [] = []
  · have hnil : r.ids = [] := by rw [JobResource.ids, hclean h0, take_zero]
    rw [hnil, h0]
    exact iff_of_false (by simp) (Ne.symm hne)
  · rw [ht.ids_eq h0, mem_singleton]
    exact eq_comm

theorem Setup.Sensible.numJob_eq (hS : S.Sensible) (c : Text) :
    S.numJob c = ∑ j, if S.origin j = c then 1 else 0 := by
  classical
  have hset : (S.workload c).toFinset = Finset.univ.filter fun j => S.origin j = c := by
    ext j
    simp [hS.workload]
  rw [Finset.sum_boole, ← hset, toFinset_card_of_nodup (hS.nodup c)]
  rfl

theorem Quiet.update [DecidableEq δ] {a b : Slip δ} {procs : Option δ → Proc} (hq : Quiet procs a)
    (hb : b.handler = a.handler) (q : Proc) : Quiet (update procs none q) b := by
  intro d
  rw [hb, update_of_ne (by simp)]
  exact hq d

variable (h : Inv S A s)
include h

/-- **A job that is still to be counted leaves room in the count.** -/
theorem Inv.below (hS : S.Sensible) (hf : (s.slip j).fins (S.origin j) = 0)
    (hl : (s.slip j).launch ≠ .failed) :
    (s.office (S.origin j)).numJobFin + (s.office (S.origin j)).numJobFail < S.numJob (S.origin j) := by
  rw [h.accounts.fin, h.accounts.fail, ← Finset.sum_add_distrib, hS.numJob_eq]
  refine Finset.sum_lt_sum (fun j' _ => (h.stage j').fins_le _) ⟨j, Finset.mem_univ j, ?_⟩
  rw [hf, Setup.fails, if_pos rfl, if_neg fun hb => hl hb.2]
  omega

theorem Inv.releasing {origin : Text} (hd : (s.slip j).handler d = .release origin) :
    (s.world.proc (j, some d)).isRelease = true := by
  obtain ⟨-, r, -, hL⟩ := (h.stage j).of_handler (by rw [hd]; simp)
  have hserve := hL.serves d
  rw [hd] at hserve
  exact hserve.2

theorem Inv.launch (hS : S.Sensible) (hl : (s.slip j).launch = .insert []) :
    Stage S j s.world.store (fun e => s.world.proc (j, e)) { s.slip j with launch := .launching } := by
  obtain ⟨r, done, hp, hq, hd, hst, hf⟩ := (h.stage j).of_insert hl
  rw [append_nil] at hd
  rw [← hd] at hst
  have hself := S.origin_mem_names j
  have hN : ∀ c ∈ S.names, c ≠ [] ∧ c ≠ ctrlsText := fun c hc =>
    ⟨(hS.names c hc).1.1, (hS.names c hc).2.1⟩
  obtain ⟨hreg, -⟩ := h.returned hq hp
  refine .launched r rfl hp ⟨hreg, hreg.stored hN hself hst, hreg.here_iff hN hself (by simp) hst,
    iff_of_false ?_ ?_, fun d => ?_, fun d _ hd => absurd (hq d).1 hd, fun d hd => absurd (hq d).1 hd,
    fun hw => absurd hw (by simp [Launch.isAway]), fun hw => absurd hw (by simp [Launch.isTold]),
    fun c _ => hf c, fun _ d hd => ?_, fun _ _ => hf _, fun _ => ?_⟩
  · have hno : S.finKey j ∉ (insertJobinfoZht (S.origin j) (S.jobId j) r).map Prod.fst := by
      intro hmem
      obtain ⟨kv, hkv, he⟩ := mem_map.1 hmem
      exact hS.finKey_ne hreg kv hkv he
    rw [Setup.finKey] at hno ⊢
    rw [hst _ (tail_append hself _), Store.writes_of_notMem hno]
    simp
  · rintro ⟨d, hd, -⟩
    rw [(hq d).1] at hd
    cases hd
  · dsimp only
    rw [(hq d).1]
    exact (hq d).2
  · rw [(hq d).1] at hd
    cases hd
  · rw [hf]
    rfl

variable [DecidableEq κ] {w : World (κ × Option δ) κ} {a : Slip δ}

theorem Inv.others (hproc : ∀ j', j' ≠ j → ∀ e, w.proc (j', e) = s.world.proc (j', e))
    (hst : ∀ j', j' ≠ j → Agrees S.names (S.jobId j') w.store s.world.store)
    (hj : Stage S j w.store (fun e => w.proc (j, e)) a) (j' : κ) :
    Stage S j' w.store (fun e => w.proc (j', e)) (update s.slip j a j') := by
  by_cases hjj : j' = j
  · subst hjj
    rw [update_self]
    exact hj
  · have hp : (fun e => w.proc (j', e)) = fun e => s.world.proc (j', e) := funext (hproc j' hjj)
    rw [update_of_ne hjj, hp]
    exact (h.stage j').agrees (hst j' hjj)

theorem Inv.still (hj : Stage S j s.world.store (fun e => s.world.proc (j, e)) a) (j' : κ) :
    Stage S j' s.world.store (fun e => s.world.proc (j', e)) (update s.slip j a j') :=
  h.others (fun _ _ _ => rfl) (fun _ _ _ _ => rfl) hj j'

theorem Inv.wrote (hS : S.Sensible) {u v : Text} (hu : Tail S.names u)
    (hj : Stage S j (s.world.store.insert (jobKey (S.jobId j) u) v)
      (fun e => s.world.proc (j, e)) a) (j' : κ) :
    Stage S j' (s.world.store.insert (jobKey (S.jobId j) u) v)
      (fun e => s.world.proc (j', e)) (update s.slip j a j') := by
  refine h.others (w := { s.world with store := s.world.store.insert (jobKey (S.jobId j) u) v })
    (fun _ _ _ => rfl) (fun j' hne => ?_) hj j'
  have hag : Agrees S.names (S.jobId j') s.world.store s.world.store := fun _ _ => rfl
  refine hag.foreign hS.legible (fun c hc => (hS.names c hc).1.1) ⟨j', rfl⟩ (.inr ⟨_, ⟨j, rfl⟩, ?_, u, hu, rfl⟩) v
  exact fun he => hne (hS.distinct he).symm

variable [DecidableEq δ]

/-! ## The allocator's moves are homely -/

theorem Inv.homely (hS : S.Sensible) {a : Turn κ δ} {P : Plan κ δ}
    (ha : S.Tame s a) (hP : S.Step s a P) {l : Label (κ × Option δ)} (hl : P.core = some l) :
    S.conf.Homely s.world l := by
  cases hP with
  | start j rand hpc jobDesc hw hr hn =>
    cases hl
    obtain ⟨-, hq, -⟩ := (h.stage j).of_before (by rw [hpc]; rfl)
    exact ⟨Quiet.idle hq, trivial⟩
  | act j rand hpc hp =>
    cases hl
    exact ha
  | insert j rand kv todo hpc =>
    cases hl
    obtain ⟨r, done, hp, -, hd, -⟩ := (h.stage j).of_insert hpc
    obtain ⟨t, -, hk⟩ := tail_of_mem_keys (S.origin_mem_names j)
      (mem_map_of_mem (hd ▸ mem_append_right done mem_cons_self))
    refine ⟨?_, trivial⟩
    show ¬S.conf.IsCtrl kv.1 ∧ kv.1 ≠ []
    rw [hk]
    exact hS.not_isCtrl t
  | built j d origin r hd =>
    cases hl
    obtain ⟨-, r0, hp, hL⟩ := (h.stage j).of_handler (by rw [hd]; simp)
    have hserve := hL.serves d
    rw [hd] at hserve
    obtain ⟨-, hreads, hidle⟩ := hserve
    have hstands : r0.Stands := by
      have := h.backed.shape (j, none)
      rwa [hp] at this
    refine ⟨⟨(j, none), ?_, rfl, .inr hidle, ?_⟩, trivial⟩
    · rw [hp]
      exact .inr ⟨hreads.pairs, hreads.stands hL.regular.num hstands⟩
    · rintro ⟨j', e⟩ hne hne' ho
      obtain rfl : j' = j := ho
      cases e with
      | none => exact absurd rfl hne
      | some d' =>
        have hd' : d' ≠ d := fun he => hne' (by rw [he])
        have hserve' := hL.serves d'
        rw [hL.others (.inl (by rw [hd]; simp)) hd'] at hserve'
        exact hserve'
  | release j d origin hd hp =>
    cases hl
    obtain ⟨hsteady, hjoin⟩ :=
      Proc.free_of_isRelease (h.releasing hd) S.cluster s.world.store (S.minNodes j)
    exact ⟨hsteady, hjoin.opens _⟩
  | leave j d origin hd ho =>
    cases hl
    exact ⟨hS.not_isCtrl _, trivial⟩
  | _ => cases hl

/-! ## Stages -/

theorem Inv.moved {e : Option δ} {q : Proc} {st : Zht}
    (held : κ → Finset (Text × Text)) (gave : κ → List (Text × Text))
    (hst : ∀ k, ¬S.conf.IsCtrl k → st k = s.world.store k) (hS : S.Sensible)
    (hj : Stage S j s.world.store (update (fun e => s.world.proc (j, e)) e q) a) (j' : κ) :
    Stage S j' st
      (fun e' => (⟨st, update s.world.proc (j, e) q, held, gave⟩ :
        World (κ × Option δ) κ).proc (j', e')) (update s.slip j a j') := by
  have hag : ∀ j', Agrees S.names (S.jobId j') st s.world.store := fun j' t _ =>
    hst _ (hS.not_isCtrl t).1
  refine h.others (w := ⟨st, update s.world.proc (j, e) q, held, gave⟩)
    (fun j' hne e' => ?_) (fun j' _ => hag j') ?_ j'
  · exact update_of_ne (fun he => hne (Prod.mk.inj he).1) _ _
  · have hp : (fun e' => update s.world.proc (j, e) q (j, e')) = update (fun e => s.world.proc (j, e)) e q := by
      funext e'
      by_cases he : e' = e
      · subst he
        rw [update_self, update_self]
      · rw [update_of_ne he, update_of_ne fun heq => he (Prod.mk.inj heq).2]
    rw [hp]
    exact hj.agrees (hag j)

variable (hS : S.Sensible)
include hS

theorem Inv.stages_thread {rand : Nat} {P : Plan κ δ}
    (ha : S.Tame s (.thread j rand)) (hP : S.Step s (.thread j rand) P) (hw : P.Carries S s.world w) :
    ∀ j', Stage S j' w.store (fun e => w.proc (j', e)) (P.slip j') := by
  -- out through an early exit
  have hexit : ∀ pc : Launch, (s.slip j).launch = .begun → pc.isBefore = true → ∀ j',
      Stage S j' s.world.store (fun e => s.world.proc (j', e)) (s.launchTo j pc j') := by
    intro pc hpc hb
    obtain ⟨hp, hq, hst, hf⟩ := (h.stage j).of_before (by rw [hpc]; rfl)
    exact h.still (.before hb hp hq hst hf)
  -- onward inside the launched stage
  have honward : ∀ pc₀ pc : Launch, (s.slip j).launch = pc₀ → pc₀.isLaunched = true → pc.isLaunched = true →
      (∀ r, Launched S j s.world.store (fun e => s.world.proc (j, e)) (s.slip j) r →
        (pc.isAway = true → ¬r.Here (S.origin j)) ∧
        (pc.isTold = true → s.world.store (S.finKey j) = some finishedText) ∧
        (¬r.Here (S.origin j) → (pc = .ended ↔ pc₀ = .ended))) → ∀ j',
      Stage S j' s.world.store (fun e => s.world.proc (j', e)) (s.launchTo j pc j') := by
    rintro _ pc rfl hl hpc hall
    obtain ⟨r, hp, hL⟩ := (h.stage j).of_launched hl
    obtain ⟨haway, htold, hend⟩ := hall r hL
    exact h.still (.launched r hpc hp (hL.goTo haway htold hend))
  cases hP with
  | overrun _ _ hpc | exited _ _ hpc | failed _ _ hpc => rw [hw.still rfl]; exact hexit _ hpc rfl
  | start _ _ hpc jobDesc hsplit hr hn =>
    have hs := hw.move rfl
    obtain ⟨-, rfl⟩ := start_eq hs
    obtain ⟨hp, hq, hst, hf⟩ := (h.stage j).of_before (by rw [hpc]; rfl)
    refine h.moved _ _ (fun _ _ => rfl) hS (.alloc rfl ?_ (hq.update rfl _) hst hf)
    rw [update_self]
    exact (goesOn_begin S.conf (j, none)).alloc
  | act _ _ hpc hp =>
    obtain ⟨o, ho, rfl⟩ := Option.map_eq_some_iff.1 (hw.move rfl)
    obtain ⟨hal, hq, hst, hf⟩ := (h.stage j).of_alloc hpc
    have halloc : (s.world.proc (j, none)).isAlloc = true := hal
    have hafter := h.backed.act h.formed hS.named hS.ctrls ha.1 ho
    have hstage := h.moved
      (o.event.post j s.world.held) (o.event.note j s.world.gave)
      (fun k hk => h.formed.act_store ho hk) hS
      (.alloc hpc (by
        rw [update_self]
        rcases hafter.phase with ⟨hrel, -⟩ | ⟨-, -, hnext⟩
        · cases hproc : s.world.proc (j, none) <;> simp_all [Proc.isAlloc, Proc.isRelease]
        · exact hnext) (hq.update rfl _) hst hf)
    rw [update_eq_self] at hstage
    exact hstage
  | returned _ _ r hpc hp =>
    rw [hw.still rfl]
    obtain ⟨-, hq, hst, hf⟩ := (h.stage j).of_alloc hpc
    exact h.still (.insert r [] _ rfl hp hq rfl hst hf)
  | insert _ _ kv todo hpc =>
    cases hw.move rfl
    obtain ⟨r, done, hp, hq, hd, hst, hf⟩ := (h.stage j).of_insert hpc
    obtain ⟨k, v⟩ := kv
    obtain ⟨u, hu, rfl⟩ := tail_of_mem_keys (S.origin_mem_names j)
      (mem_map_of_mem (hd ▸ mem_append_right done mem_cons_self))
    refine h.wrote hS hu (.insert r (done ++ [(jobKey (S.jobId j) u, v)]) todo rfl hp hq ?_ ?_ hf)
    · rw [hd, append_assoc]
      rfl
    · rw [Store.writes_concat]
      exact hst.insert _ _
  | inserted _ _ hpc => rw [hw.still rfl]; exact h.still (h.launch hS hpc)
  | launched _ _ hpc =>
    rw [hw.still rfl]
    exact honward _ _ hpc rfl rfl fun r hL => ⟨by rintro ⟨⟩, by rintro ⟨⟩, by simp⟩
  | here _ _ hpc hv =>
    rw [hw.still rfl]
    exact honward _ _ hpc rfl rfl fun r hL => ⟨by rintro ⟨⟩, by rintro ⟨⟩, fun hh => absurd (hL.here.1 hv) hh⟩
  | away _ _ hpc hv =>
    rw [hw.still rfl]
    exact honward _ _ hpc rfl rfl fun r hL => ⟨fun _ hh => hv (hL.here.2 hh), by rintro ⟨⟩, by simp⟩
  | told _ _ hpc hv =>
    rw [hw.still rfl]
    exact honward _ _ hpc rfl rfl fun r hL => ⟨fun _ => hL.away (by rw [hpc]; rfl), fun _ => hv, by simp⟩
  | untold _ _ hpc hv => rw [hw.still rfl]; exact h.stage
  | below _ _ hpc hn =>
    rw [hw.still rfl]
    refine honward _ _ hpc rfl rfl fun r hL => ⟨fun _ => hL.away ?_, fun _ => hL.told ?_, by simp⟩ <;> rw [hpc] <;> rfl
  | above _ _ hpc hn =>
    -- the job itself is not counted yet, so the count cannot be full
    obtain ⟨r, hp, hL⟩ := (h.stage j).of_launched (by rw [hpc]; rfl)
    have hzero := hL.waits (hL.away (by rw [hpc]; rfl))
    rw [hpc, if_neg (by simp)] at hzero
    exact absurd (h.below hS hzero (by rw [hpc]; simp)) hn
  | count _ _ hpc =>
    rw [hw.still rfl]
    obtain ⟨r, hp, hL⟩ := (h.stage j).of_launched (by rw [hpc]; rfl)
    exact h.still (.launched r rfl hp (hL.count hpc))

theorem Inv.stages_deliver (ha : S.Tame s (.deliver j d)) :
    ∀ j', Stage S j' s.world.store (fun e => s.world.proc (j', e)) (s.handlerTo j d .origin j') := by
  obtain ⟨hl, hall, hlow⟩ := ha
  obtain ⟨r, hp, hL⟩ := (h.stage j).of_launched hl
  have hq : Quiet (fun e => s.world.proc (j, e)) (s.slip j) := by
    intro d'
    have hserve := hL.serves d'
    rw [hall d'] at hserve
    exact ⟨hall d', hserve⟩
  exact h.still (.launched r hl hp (hL.serveStill (.inr hall) (h.here_iff hS hq hp hlow) (by simp)
    (by rw [hall d]; simp) (hq d).2))

theorem Inv.stages_handle {P : Plan κ δ}
    (hP : S.Step s (.handle j d) P) (hw : P.Carries S s.world w) :
    ∀ j', Stage S j' w.store (fun e => w.proc (j', e)) (P.slip j') := by
  -- in every case the handler has its message, so the job is launched
  have hjob : ∀ pc : Handler, (s.slip j).handler d = pc → pc ≠ .awaited →
      (s.slip j).launch.isLaunched = true ∧ ∃ r, s.world.proc (j, none) = .holding r ∧
        Launched S j s.world.store (fun e => s.world.proc (j, e)) (s.slip j) r ∧
        (r.Here (S.origin j) ↔ S.ctrl j d = S.origin j) ∧
        Serves S.cluster (S.origin j) r pc (s.world.proc (j, some d)) := by
    rintro _ rfl hne
    obtain ⟨hl, r, hp, hL⟩ := (h.stage j).of_handler hne
    exact ⟨hl, r, hp, hL, hL.home d hne, hL.serves d⟩
  cases hP with
  | origin _ _ hd =>
    rw [hw.still rfl]
    obtain ⟨hl, r, hp, hL, hhome, hidle⟩ := hjob _ hd (by simp)
    have horigin : s.world.store (jobKey (S.jobId j) []) = some (S.origin j) :=
      hL.stored (_, _) mem_cons_self
    rw [horigin]
    exact h.still (.launched r hl hp (hL.serveStill (.inl (by simp [hd])) hhome (by simp)
      (by simp [hd]) ⟨rfl, trivial, hidle⟩))
  | read _ _ origin b b' hd hb =>
    rw [hw.still rfl]
    obtain ⟨hl, r, hp, hL, hhome, rfl, hreads, hidle⟩ := hjob _ hd (by simp)
    have hreads' := hL.regular.reads (fun c hc => (hS.names c hc).1) hL.stored hreads hb
    exact h.still (.launched r hl hp (hL.serveStill (.inl (by simp [hd])) hhome (by simp)
      (by simp [hd]) ⟨rfl, hreads', hidle⟩))
  | built _ _ origin r' hd =>
    have hs := hw.move rfl
    obtain rfl := complete_eq hs
    obtain ⟨hl, r, hp, hL, hhome, rfl, -, -⟩ := hjob _ hd (by simp)
    have hrel : (Proc.beginRelease r').isRelease = true := by
      rw [Proc.beginRelease, releaseFrom]
      split_ifs <;> rfl
    refine h.moved _ _ (fun _ _ => rfl) hS (.launched r hl ?_ (hL.serve (.inl (by simp [hd])) hhome
      (by simp) (by simp [hd]) ⟨rfl, hrel⟩))
    rw [update_of_ne (by simp)]
    exact hp
  | broken _ _ origin f hd =>
    obtain ⟨-, r, -, -, -, -, hreads, -⟩ := hjob _ hd (by simp)
    exact hreads.elim
  | release _ _ origin hd hp' =>
    obtain ⟨o, ho, rfl⟩ := Option.map_eq_some_iff.1 (hw.move rfl)
    obtain ⟨hl, r, hp, hL, hhome, rfl, hrel⟩ := hjob _ hd (by simp)
    have hsteady := (h.homely hS (a := .handle j d) trivial (.release j d _ hd hp') rfl).1
    have hafter := h.backed.act h.formed hS.named hS.ctrls hsteady ho
    have hrel' : o.next.isRelease = true := by
      rcases hafter.phase with ⟨-, hr⟩ | ⟨hal, -, -⟩
      · exact hr
      · cases hproc : s.world.proc (j, some d) <;> simp_all [Proc.isAlloc, Proc.isRelease]
    have hL' := hL.serve (.inl (by simp [hd])) hhome (by simp)
      (by simp [hd]) (show Serves _ _ _ (.release (S.origin j)) _ from ⟨rfl, hrel'⟩)
    have hsame : update (s.slip j).handler d (.release (S.origin j)) = (s.slip j).handler := by
      rw [← hd, update_eq_self]
    rw [hsame] at hL'
    have hstage := h.moved
      (o.event.post j s.world.held) (o.event.note j s.world.gave)
      (fun k hk => h.formed.act_store ho hk) hS
      (.launched r hl (by rw [update_of_ne (by simp)]; exact hp) hL')
    rw [update_eq_self] at hstage
    exact hstage
  | released _ _ origin hd hp' =>
    rw [hw.still rfl]
    obtain ⟨hl, r, hp, hL, hhome, rfl, -⟩ := hjob _ hd (by simp)
    exact h.still (.launched r hl hp (hL.serveStill (.inl (by simp [hd])) hhome (by simp)
      (by simp [hd]) ⟨rfl, hp'⟩))
  | fin _ _ hd =>
    rw [hw.still rfl]
    obtain ⟨hl, r, hp, hL, -⟩ := hjob _ hd (by simp)
    exact h.still (.launched r hl hp (hL.finish hd))
  | leave _ _ origin hd ho =>
    cases hw.move rfl
    obtain ⟨hl, r, hp, hL, -, rfl, -⟩ := hjob _ hd (by simp)
    exact h.wrote hS (tail_append (S.origin_mem_names j) _) (.launched r hl hp (hL.leave hS hd ho))

theorem Inv.stages {b : Turn κ δ} {P : Plan κ δ}
    (ha : S.Tame s b) (hP : S.Step s b P) (hw : P.Carries S s.world w) :
    ∀ j', Stage S j' w.store (fun e => w.proc (j', e)) (P.slip j') := by
  cases b with
  | thread j rand => exact h.stages_thread hS ha hP hw
  | handle j d => exact h.stages_handle hS hP hw
  | deliver j d =>
    cases hP with
    | deliver _ _ hd =>
      rw [hw.still rfl]
      exact h.stages_deliver hS ha
  | main c =>
    cases hP with
    | counted _ hc =>
      rw [hw.still rfl]
      exact h.stage
    | popped _ j queue hc hq hn =>
      rw [hw.still rfl]
      have hl := ((h.accounts.queue c j).1 (hq ▸ mem_cons_self)).2
      obtain ⟨hp, hquiet, hst, hf⟩ := (h.stage j).of_before (by rw [hl]; rfl)
      exact h.still (.before rfl hp hquiet hst hf)

/-! ## Runs -/

theorem Inv.step {b : Turn κ δ} (hb : S.Tame s b)
    (hs : (system S).step s b = some t) : ∃ A', Inv S A' t ∧ Refined A A' := by
  obtain ⟨P, hP, hslip, -, hw⟩ := system_step hs
  have hstage := h.stages hS hb hP hw
  rw [← hslip] at hstage
  have hacc := h.accounts.step hs
  rcases hw with ⟨-, hw⟩ | ⟨l, hl, hstep⟩
  · rw [hw] at hstage
    exact ⟨A, ⟨hw ▸ h.formed, hw ▸ h.backed, hw ▸ h.trails, hw ▸ h.signed, hacc, hw ▸ hstage⟩, .inl rfl⟩
  · have hhome := h.homely hS hb hP hl
    obtain ⟨A', hF, hA⟩ := h.formed.step hS.named (h.backed.single hhome.1) hstep
    have hsig := Conf.signed_step (fun p => ⟨h.formed.kept.claims.ok p, h.signed p⟩) hstep
    exact ⟨A', ⟨hF, h.backed.step h.formed hS.named hS.ctrls hhome.1 hstep,
      h.trails.step h.backed h.formed hS.named hS.ctrls hhome hstep, fun p => (hsig p).2, hacc,
      hstage⟩, hA⟩

end Facts

/-- **Where a run begins**: pools in form, nothing held or given back, no job's key in the store,
    every line in its queue, and all counters zero. -/
structure Setup.Begin (S : Setup κ δ) (s : System κ δ) : Prop where
  sensible : S.Sensible
  ready : S.conf.Ready s.world
  gave : ∀ i, s.world.gave i = []
  fresh : ∀ j t, Tail S.names t → s.world.store (jobKey (S.jobId j) t) = none
  slip : ∀ j, s.slip j = ⟨.queued, fun _ => .awaited, fun _ => 0⟩
  office : ∀ c, s.office c = ⟨S.workload c, false, 0, 0, 0⟩

theorem Setup.Begin.inv [Fintype κ] (h : S.Begin s) :
    ∃ A, Inv S A s ∧ ∀ x, A x ≠ .out ↔ x ∈ S.conf.listed s.world.store := by
  obtain ⟨A, hF, hA⟩ := h.ready.formed
  refine ⟨A, ⟨hF, h.ready.backed, ⟨fun p _ => ?_, fun i _ => ⟨h.ready.empty i, h.gave i⟩,
    fun p q r _ _ hp => ?_⟩, fun p => ?_, ⟨fun c => ?_, fun c => ?_, fun c => ?_, fun c => ?_,
    fun c j => ?_⟩, fun j => .before ?_ (h.ready.idle _) (fun d => ⟨?_, h.ready.idle _⟩) (h.fresh j)
    fun c => ?_⟩, hA⟩
  · rw [h.ready.idle p]
    trivial
  · rw [h.ready.idle p] at hp
    cases hp
  · rw [h.ready.idle p]
    trivial
  · simp [h.office, h.slip]
  · simp [h.office, h.slip, Setup.fails]
  · simp [h.office, h.slip, Setup.slots, Office.uncounted, Launch.occupies]
  · rw [h.office]
    exact h.sensible.nodup c
  · rw [h.office, h.slip]
    simp [h.sensible.workload]
  · rw [h.slip]
    rfl
  · rw [h.slip]
  · rw [h.slip]

/-- **The invariant holds in every state of every tame run**, which is a run of custody without
    arrivals. -/
theorem reach_inv [Fintype κ] [DecidableEq κ] [DecidableEq δ] {s0 : System κ δ} (h0 : S.Begin s0)
    (h : (system S).Reach S.Tame s0 s) :
    ∃ A0 A, (∀ x, A0 x ≠ .out ↔ x ∈ S.conf.listed s0.world.store) ∧ Inv S A s ∧
      Custody.custody.Reach (fun _ m => m.Inner) A0 A := by
  obtain ⟨A0, hI0, hA0⟩ := h0.inv
  obtain ⟨A, hI, hr⟩ := h.invariant
    (I := fun u => ∃ A, Inv S A u ∧ Custody.custody.Reach (fun _ m => m.Inner) A0 A)
    ⟨A0, hI0, .start⟩ (by
      rintro u b v ⟨A, hI, hr⟩ hb hs
      obtain ⟨A', hI', hA⟩ := hI.step h0.sensible hb hs
      exact ⟨A', hI', hA.reach hr⟩)
  exact ⟨A0, A, hA0, hI, hr⟩

end Slurmpp.Controller
