/-
  What a job's record tells about where its nodes came from: the origin decides from it, and from it only, whether it
  waits for the completion.  For every record that is not the leftover of an abandoned attempt:

  * first slot   — empty as long as the job holds nothing; then the controller used FIRST;
  * `self`       — no controller used so far stands before the thread's own in the membership list;
  * own nodes    — if nodes of the thread's own controller are held, they were filed first (`Opens`);
  * given back   — nothing yet; and once a release has begun, what is given back and what is still to be put back are
                   together, in order, what the record counts.

  `Trails` is the invariant; `Homely` steps, which all plain steps are, keep it.
-/
import Slurmpp.Controller.Record

namespace Slurmpp.Controller

open Function

open Text (words)
open Custody (Place)

variable {π ι : Type*}

/-! ## The condition -/

/-- A thread about to file nodes of its own controller has a record that is empty or begins with
    it. -/
def Cluster.Opens (K : Cluster) (selfId : Text) (st : Zht) (need : Nat) : Proc → Prop
  | .take r c seen =>
    st c = some seen → K.doAllocate seen (need - r.numNode) ≠ .refused → c = selfId →
      r.ctrlIds2.getD 0 [] = [] ∨ r.ctrlIds2.getD 0 [] = selfId
  | _ => True

instance (K : Cluster) (selfId : Text) (st : Zht) (need : Nat) : ∀ q, Decidable (K.Opens selfId st need q)
  | .take _ _ _ => inferInstanceAs (Decidable (_ → _ → _ → _ ∨ _))
  | .abandon _ _ | .idle | .look _ _ | .holding _ | .release _ _ | .released | .fault _ =>
    inferInstanceAs (Decidable True)

theorem Cluster.Joins.opens {K : Cluster} {st : Zht} {need : Nat} {q : Proc}
    (h : K.Joins st need q) (selfId : Text) : K.Opens selfId st need q := by
  cases q with
  | take r c seen =>
    rintro hs ha rfl
    exact h hs ha
  | _ => trivial

/-- **Homely steps** are steady, and file the nodes of a thread's own controller first. -/
def Conf.Homely (C : Conf π ι) (s : World π ι) (l : Label π) : Prop :=
  C.Steady s l ∧
    match l with
    | .act p _ => C.cluster.Opens (C.selfId p) s.store (C.need p) (s.proc p)
    | _ => True

/-! ## The trail of one record -/

/-- **The trail of a record**: what it says of the nodes `H` the job holds and `G` it has given
    back. -/
structure JobResource.Trail (K : Cluster) (selfId : Text) (H : Finset (Text × Text))
    (G : List (Text × Text)) (r : JobResource) : Prop where
  empty : r.ctrlIds2.getD 0 [] = [] → H = ∅ ∧ r.numNode = 0
  first : r.ctrlIds2.getD 0 [] ≠ [] → ∃ n, (r.ctrlIds2.getD 0 [], n) ∈ H
  own : ∀ n, (selfId, n) ∈ H → r.ctrlIds2.getD 0 [] = selfId
  flag : r.self = true ↔ ∀ x ∈ H, K.getIndex selfId ≤ K.getIndex x.1
  gave : G = []

/-- A record that `allocate_res` returns has a trail; so has one it is still working on, unless it
    is a leftover. -/
def Follows (K : Cluster) (selfId : Text) (need : Nat) (H : Finset (Text × Text))
    (G : List (Text × Text)) : Proc → Prop
  | .look r _ => r.Clean → r.Trail K selfId H G
  | .take r _ _ => r.Clean → r.Trail K selfId H G
  | .holding r => r.Clean ∧ need ≤ r.numNode ∧ r.Trail K selfId H G
  | _ => True

section Private

variable {K : Cluster} {selfId : Text} {need rand : Nat} {H : Finset (Text × Text)}
  {G : List (Text × Text)} {r r' : JobResource} {c nl : Text} {n : Nat}

theorem JobResource.Blank.trail (hb : r.Blank K) (hself : r.self = true) (hn : r.numNode = 0) :
    r.Trail K selfId ∅ [] := by
  have h0 : r.ctrlIds2.getD 0 [] = [] := by rw [hb.ids, getD_replicate_nil]
  refine ⟨fun _ => ⟨rfl, hn⟩, fun hne => absurd h0 hne, ?_, ?_, rfl⟩
  · intro n hx
    exact absurd hx (Finset.notMem_empty _)
  · rw [hself]
    simp

theorem follows_loopHead (h : r.Clean → r.Trail K selfId H G) (hc : r.numNode < need ∨ r.Clean) :
    Follows K selfId need H G (K.loopHead need rand r) := by
  rw [Cluster.loopHead]
  cases K.memList[rand % K.numCtrl]? with
  | none => trivial
  | some c =>
    split_ifs with hn
    · exact h
    · have hclean := hc.resolve_left hn
      exact ⟨hclean, by omega, h hclean⟩

theorem follows_begin : Follows K selfId need ∅ [] (K.begin selfId need) := by
  have ht : K.initJobResource.Trail K selfId ∅ [] := (blank_init K).trail rfl rfl
  rw [Cluster.begin]
  split_ifs with hn
  · exact fun _ => ht
  · exact ⟨fun _ => rfl, by omega, ht⟩

theorem follows_reset (hneed : 0 < need) (hn : 0 < r.numCtrl) :
    Follows K selfId need H G (K.loopHead need rand (K.resetJobResource r)) := by
  refine follows_loopHead (fun hclean => ?_) (.inl hneed)
  have hz : r.numCtrl = 0 := hclean (by rw [(blank_reset K r).ids, getD_replicate_nil])
  omega

theorem follows_failed (ht : r.Tidy K) (hn : r.numNode < need) (h : r.Clean → r.Trail K selfId H G) :
    Follows K selfId need H G (K.again need rand (Cluster.failed r)) := by
  rw [Cluster.again, releaseFrom]
  split_ifs with htry hnum
  · trivial
  · -- nothing was filed yet, so the reset forgets nothing
    have hz : r.numCtrl = 0 := Nat.eq_zero_of_not_pos hnum
    have h0 : r.ctrlIds2.getD 0 [] = [] := by
      by_contra hne
      have := (ht.single hne).1
      omega
    have htrail := h fun _ => hz
    obtain ⟨rfl, -⟩ := htrail.empty h0
    obtain rfl := htrail.gave
    have hzero : (K.resetJobResource (Cluster.failed r)).numNode < need := Nat.zero_lt_of_lt hn
    exact follows_loopHead (fun _ => (blank_reset K _).trail rfl rfl) (.inl hzero)
  · exact follows_loopHead
      (fun hc => ⟨(h hc).empty, (h hc).first, (h hc).own, (h hc).flag, (h hc).gave⟩) (.inl hn)

/-- **Filing nodes** of controller `c` in a clean record. -/
theorem JobResource.Trail.update (h : r.Trail K selfId H G) (hK : 0 < K.numCtrl) (ht : r.Tidy K)
    (hclean : r.Clean) (hc : c ≠ []) (hself : selfId ≠ [])
    (hopen : c = selfId → r.ctrlIds2.getD 0 [] = [] ∨ r.ctrlIds2.getD 0 [] = selfId)
    (hnl : words ',' nl ≠ []) (hu : K.updateJobResource selfId r n c nl = some r') :
    r'.Clean ∧ r'.Trail K selfId (H ∪ (under c (words ',' nl)).toFinset) G := by
  have h0 := first_update hK ht hclean hu
  have hne : r'.ctrlIds2.getD 0 [] ≠ [] := by
    rw [h0]
    split_ifs with hz
    · exact hc
    · exact hz
  obtain ⟨m, hm⟩ := List.exists_mem_of_ne_nil _ hnl
  have hmem : ∀ x : Text × Text, x ∈ H ∪ (under c (words ',' nl)).toFinset ↔
      x ∈ H ∨ x.1 = c ∧ x.2 ∈ words ',' nl := by
    intro x
    rw [Finset.mem_union, List.mem_toFinset, mem_under]
  refine ⟨fun hz => absurd hz hne, fun hz => absurd hz hne, fun _ => ?_, fun n hx => ?_, ?_, h.gave⟩
  · rw [h0]
    split_ifs with hz
    · exact ⟨m, (hmem _).2 (.inr ⟨rfl, hm⟩)⟩
    · obtain ⟨n, hn⟩ := h.first hz
      exact ⟨n, (hmem _).2 (.inl hn)⟩
  · rw [h0]
    rcases (hmem _).1 hx with hx | ⟨hcc, -⟩
    · have hown := h.own n hx
      rw [if_neg (by rw [hown]; exact hself), hown]
    · have hcs : c = selfId := hcc.symm
      split_ifs with hz
      · exact hcs
      · exact (hopen hcs).resolve_left hz
  · rw [(update_cases hu).1.self]
    split_ifs with hlt
    · -- the chunk's controller stands before the thread's own
      refine iff_of_false (by simp) fun hall => ?_
      have hle : K.getIndex selfId ≤ K.getIndex c := hall (c, m) ((hmem _).2 (.inr ⟨rfl, hm⟩))
      omega
    · rw [h.flag]
      constructor
      · intro hall x hx
        rcases (hmem x).1 hx with hx | ⟨hcc, -⟩
        · exact hall x hx
        · rw [hcc]
          omega
      · intro hall x hx
        exact hall x ((hmem x).2 (.inl hx))

theorem follows_took (hclean : r'.Clean) (h : r'.Trail K selfId H G) (htry : r'.numTry = 0) :
    Follows K selfId need H G (K.again need rand r') := by
  rw [Cluster.again, if_neg (by omega)]
  exact follows_loopHead (fun _ => h) (.inr hclean)

end Private

/-! ## The lowest controller -/

/-- The controller `c` is one of those used, and none of them stands before it in the membership
    list. -/
def Cluster.Lowest (K : Cluster) (H : Finset (Text × Text)) (c : Text) : Prop :=
  (∃ x ∈ H, x.1 = c) ∧ ∀ x ∈ H, K.getIndex c ≤ K.getIndex x.1

instance (K : Cluster) (H : Finset (Text × Text)) (c : Text) : Decidable (K.Lowest H c) :=
  inferInstanceAs (Decidable (_ ∧ _))

theorem Cluster.getIndex_inj {K : Cluster} {c c' : Text} (hc : c ∈ K.memList)
    (h : K.getIndex c' = K.getIndex c) : c' = c :=
  ((List.idxOf_inj hc).1 h.symm).symm

/-- **Flag and first slot point to the lowest controller**: the flag is set and the first slot is
    the thread's own controller exactly if no controller used stands before it. -/
theorem JobResource.Trail.lowest_iff {K : Cluster} {selfId c : Text} {H : Finset (Text × Text)}
    {G : List (Text × Text)} {r : JobResource} (h : r.Trail K selfId H G)
    (hself : selfId ∈ K.memList) (hne : selfId ≠ []) (hc : K.Lowest H c) :
    r.self = true ∧ r.ctrlIds2.getD 0 [] = selfId ↔ c = selfId := by
  obtain ⟨⟨⟨c', n⟩, hx, rfl⟩, hlow⟩ := hc
  constructor
  · rintro ⟨hflag, h0⟩
    obtain ⟨m, hm⟩ := h.first (by rw [h0]; exact hne)
    rw [h0] at hm
    have hle := hlow _ hm
    have hge := h.flag.1 hflag _ hx
    exact Cluster.getIndex_inj hself (le_antisymm hle hge)
  · rintro rfl
    exact ⟨h.flag.2 hlow, h.own n hx⟩

/-! ## Runs -/

section Runs

variable [DecidableEq ι] {C : Conf π ι} {A : Text × Text → Place ι} {s t : World π ι} {p : π}

/-- **Records and books of all jobs.** -/
structure Trails (C : Conf π ι) (s : World π ι) : Prop where
  follows : ∀ p, (∀ q, q ≠ p → C.owner q = C.owner p → s.proc q = .idle) →
    Follows C.cluster (C.selfId p) (C.need p) (s.held (C.owner p)) (s.gave (C.owner p)) (s.proc p)
  unused : ∀ i, (∀ p, C.owner p = i → s.proc p = .idle) → s.held i = ∅ ∧ s.gave i = []
  given : ∀ p q r, p ≠ q → C.owner p = C.owner q → s.proc p = .holding r →
    (s.proc q).isRelease = true → s.gave (C.owner q) ++ (s.proc q).record = r.pairs

theorem Formed.follows_act (h : Formed C A s) (hno : ¬C.IsCtrl []) (hK : 0 < C.cluster.numCtrl)
    {rand : Nat} {o : Out Proc}
    (hf : Follows C.cluster (C.selfId p) (C.need p) (s.held (C.owner p)) (s.gave (C.owner p))
      (s.proc p)) (hl : C.Homely s (.act p rand))
    (ho : C.cluster.act (C.selfId p) (C.need p) rand s.store (s.proc p) = some o) :
    Follows C.cluster (C.selfId p) (C.need p) (o.event.post (C.owner p) s.held (C.owner p))
      (o.event.note (C.owner p) s.gave (C.owner p)) o.next := by
  obtain ⟨hsteady, hopen⟩ := hl
  rw [Conf.Steady] at hsteady
  dsimp only at hopen
  have hst := Cluster.act_step ho
  have hok := h.kept.claims.ok p
  have hfit := h.fit p
  generalize s.proc p = q at hst hok hfit hf hsteady hopen
  cases hst with
  | missing | refused => exact follows_failed hok.1 hfit.1 hf
  | found | late => exact hf
  | broken | spilled => trivial
  | took r r' c seen num nl new ha hs hu =>
    have hc : c ≠ [] := fun he => hno (he ▸ hok.2)
    have hself : C.selfId p ≠ [] := fun he => hno (he ▸ .inr ⟨p, rfl⟩)
    have hoffer : C.cluster.doAllocate seen (C.need p - r.numNode) ≠ .refused := by
      rw [ha]
      simp
    obtain ⟨hclean, -⟩ := hsteady hs hoffer
    have hnl := hfit.2.2.1.words_swap_ne_nil (Nat.sub_pos_of_lt hfit.1) ha
    obtain ⟨hclean', htrail⟩ := (hf hclean).update hK hok.1 hclean hc hself (hopen hs hoffer) hnl hu
    have hpost : (Event.took c (words ',' nl)).post (C.owner p) s.held (C.owner p) =
        s.held (C.owner p) ∪ (under c (words ',' nl)).toFinset := update_self _ _ _
    rw [hpost]
    exact follows_took hclean' htrail (update_cases hu).1.numTry
  | abandon r pc o hr =>
    have hneed : 0 < C.need p := by
      cases pc with
      | lookup i => exact hfit.1
      | swap i seen => exact hfit.1.1
    cases o.next with
    | error f => trivial
    | ok e =>
      cases e with
      | none => exact follows_reset hneed (Nat.zero_lt_of_lt hok.2)
      | some pc' => trivial
  | release r pc o hr =>
    cases o.next with
    | error f => trivial
    | ok e => cases e <;> trivial

/-- **A store operation of `release_res` moves nodes from "to be put back" to "given back"**, and
    changes nothing else. -/
theorem rel_given {K : Cluster} {r : JobResource} {st : Zht} {pc : Rel}
    {o : Out (Except Fault (Option Rel))} {e : Option Rel} (hr : K.RelStep r st pc o)
    (hin : pc.slot < r.numCtrl) (he : o.next = .ok e) (i : ι) (gave : ι → List (Text × Text)) :
    o.event.note i gave i ++ claimAt r (.ok e) = gave i ++ r.pairsFrom pc.slot := by
  cases hr with
  | outside | null | tokens => cases he
  | found | late =>
    cases he
    rfl
  | gave j seen new hm hs =>
    cases he
    have hnote : (Event.gave (r.ctrlIds2.getD j []) (words ',' (r.nodeAlloc.getD j []))).note i gave
        i = gave i ++ r.slotPairs j := update_self _ _ _
    have hin' : j < r.numCtrl := hin
    rw [hnote, claimAt_releaseFrom, List.append_assoc, ← JobResource.pairsFrom_of_lt hin']
    rfl

theorem note_frame (e : Event) {i : ι} (gave : ι → List (Text × Text)) {j : ι} (hj : j ≠ i) :
    e.note i gave j = gave j := by
  cases e <;> simp [Event.note, update_of_ne hj]

theorem Formed.given_act (h : Formed C A s) {rand : Nat} {o : Out Proc}
    (hrel : (s.proc p).isRelease = true) (hshape : Shape C.cluster o.next)
    (ho : C.cluster.act (C.selfId p) (C.need p) rand s.store (s.proc p) = some o) :
    o.event.note (C.owner p) s.gave (C.owner p) ++ o.next.record = s.gave (C.owner p) ++ (s.proc p).record := by
  have hst := Cluster.act_step ho
  have hok := h.kept.claims.ok p
  generalize s.proc p = q at hst hok hrel
  cases hst with
  | release r pc o hr =>
    cases he : o.next with
    | error f =>
      rw [he] at hshape
      exact hshape.elim
    | ok e =>
      have hgiven := rel_given hr hok he (C.owner p) s.gave
      cases e <;> exact hgiven
  | _ => cases hrel

variable [DecidableEq π]

section Replace

variable {q : Proc} {st : Zht} {held : ι → Finset (Text × Text)} {gave : ι → List (Text × Text)}

omit [DecidableEq ι] in
theorem Trails.replace (hT : Trails C s) (hq : q ≠ .idle) (hheld : ∀ i, i ≠ C.owner p → held i = s.held i)
    (hgave : ∀ i, i ≠ C.owner p → gave i = s.gave i) (hother : Yields C s p q)
    (hfollow : (∀ p', p' ≠ p → C.owner p' = C.owner p → s.proc p' = .idle) →
      Follows C.cluster (C.selfId p) (C.need p) (held (C.owner p)) (gave (C.owner p)) q)
    (hgiven : ∀ p' r, p' ≠ p → C.owner p' = C.owner p → s.proc p' = .holding r →
      q.isRelease = true → gave (C.owner p) ++ q.record = r.pairs) :
    Trails C ⟨st, update s.proc p q, held, gave⟩ := by
  refine ⟨fun p' hidle => ?_, fun i hi => ?_, fun p1 p2 r hne ho h1 h2 => ?_⟩
  · dsimp only at hidle ⊢
    by_cases hp : p' = p
    · subst hp
      rw [update_self]
      refine hfollow fun p1 hp1 ho1 => ?_
      have := hidle p1 hp1 ho1
      rwa [update_of_ne hp1] at this
    · have ho : C.owner p' ≠ C.owner p := by
        intro ho
        have := hidle p (Ne.symm hp) ho.symm
        rw [update_self] at this
        exact hq this
      rw [update_of_ne hp, hheld _ ho, hgave _ ho]
      refine hT.follows p' fun p1 hp1 ho1 => ?_
      have hpp : p1 ≠ p := fun he => ho (he ▸ ho1.symm)
      have := hidle p1 hp1 ho1
      rwa [update_of_ne hpp] at this
  · obtain ⟨hne, hidle⟩ := idle_of_update hq hi
    dsimp only
    rw [hheld i hne, hgave i hne]
    exact hT.unused i hidle
  · dsimp only at h1 h2 ⊢
    by_cases hp2 : p2 = p
    · subst hp2
      rw [update_of_ne hne] at h1
      rw [update_self] at h2 ⊢
      exact hgiven p1 r hne ho h1 h2
    · rw [update_of_ne hp2] at h2 ⊢
      -- a thread that releases is neither idle nor holding, so it is of another job
      have ho2 : C.owner p2 ≠ C.owner p := by
        intro ho2
        rcases hother p2 hp2 ho2 with hi | ⟨hh, -⟩
        · rw [hi] at h2
          cases h2
        · cases hq2 : s.proc p2 <;> simp_all [Proc.isHolding, Proc.isRelease]
      have hp1 : p1 ≠ p := fun he => ho2 (he ▸ ho.symm)
      rw [update_of_ne hp1] at h1
      rw [hgave _ ho2]
      exact hT.given p1 p2 r hne ho h1 h2

end Replace

theorem Trails.step (hT : Trails C s) (hB : Backed C s) (h : Formed C A s) (hno : ¬C.IsCtrl [])
    (hK : 0 < C.cluster.numCtrl) {l : Label π} (hl : C.Homely s l)
    (hs : (allocator C).step s l = some t) : Trails C t := by
  cases l with
  | insert k v =>
    cases hs
    exact ⟨hT.follows, hT.unused, hT.given⟩
  | start p =>
    obtain ⟨hidle, rfl⟩ := start_eq hs
    have hbegin := goesOn_begin C p
    have hothers : ∀ p', p' ≠ p → C.owner p' = C.owner p → s.proc p' = .idle := hl.1
    refine hT.replace ?_ (fun _ _ => rfl) (fun _ _ => rfl)
      (fun p' hp ho => .inl (hothers p' hp ho)) (fun _ => ?_) fun p' r hp ho hh _ => ?_
    · intro he
      have := hbegin.alloc
      rw [he] at this
      cases this
    · -- no thread of the job has started, so nothing is held and nothing given back
      obtain ⟨hheld, hgave⟩ := hT.unused (C.owner p) fun p' ho => by
        by_cases hp : p' = p
        · exact hp ▸ hidle
        · exact hothers p' hp ho
      rw [hheld, hgave]
      exact follows_begin
    · rw [hothers p' hp ho] at hh
      cases hh
  | act p rand =>
    obtain ⟨o, ho, rfl⟩ := Option.map_eq_some_iff.1 hs
    obtain ⟨-, hothers⟩ := hB.acting ho
    have hafter := hB.act h hno hK hl.1 ho
    refine hT.replace hafter.ne_idle (fun i hi => post_frame _ hi)
      (fun i hi => note_frame _ _ hi) (hafter.others hothers) (fun hidle => ?_)
      fun p' r hp hown hh hrel => ?_
    · exact h.follows_act hno hK (hT.follows p hidle) hl ho
    · have hrel' : (s.proc p).isRelease = true := by
        rcases hothers p' hp hown with hi | ⟨-, hr⟩
        · rw [hi] at hh
          cases hh
        · exact hr
      rw [h.given_act hrel' hafter.shape ho]
      exact hT.given p' p r hp hown hh hrel'
  | complete q r =>
    obtain ⟨hst, -, -, -, hothers⟩ := hB.complete hl.1
    obtain ⟨p, hret, hown, hqp, hidle⟩ := hl.1
    obtain rfl := complete_eq hs
    obtain ⟨hrec, -, hrel⟩ := beginRelease_record C.cluster hst
    have hnot : Proc.beginRelease r ≠ .idle := by
      intro he
      rw [he] at hrel
      cases hrel
    refine hT.replace hnot (fun _ _ => rfl) (fun _ _ => rfl)
      (fun p' hne ho => (hothers p' hne ho).imp id fun hh => ⟨hh, hrel⟩) (fun _ => ?_)
      fun p' r' hp ho hh _ => ?_
    · rw [Proc.beginRelease, releaseFrom]
      split_ifs <;> trivial
    · -- only the thread that has returned the record holds one, and nothing is given back yet
      obtain ⟨r0, hr0, hr⟩ := hret.holding
      have hpp : p' = p := by
        by_contra hne
        rw [hidle p' hne hp ho] at hh
        cases hh
      subst hpp
      rw [hr0] at hh
      cases hh
      have hsole : ∀ p1, p1 ≠ p' → C.owner p1 = C.owner p' → s.proc p1 = .idle := by
        intro p1 hne ho1
        by_cases hq : p1 = q
        · rcases hqp with rfl | hi
          · exact absurd rfl hp
          · exact hq ▸ hi
        · exact hidle p1 hne hq (ho1.trans ho)
      have hfol := hT.follows p' hsole
      rw [hr0] at hfol
      rw [hrec, ← hown, hfol.2.2.gave, List.nil_append]
      rcases hr with rfl | ⟨hpairs, -⟩
      · rfl
      · exact hpairs

end Runs

end Slurmpp.Controller
