/-
  Mutual exclusion: the textual pools and the jobs' private records refine CUSTODY, a function that says where each
  node is: in a pool, or with ONE job.  `Kept` ties the three together:

  * the names listed in the pools and the ledger of each job show a custody state (`tracks`);
  * every pool text is a count followed by that many distinct names (`pools`);
  * what a thread may still put back, its `claim`, are distinct nodes its job holds (`procs`), and two threads of one
    job never claim the same node (`apart`).

  A stale read does no harm: a swap only succeeds on the text that was read, so at that moment the names offered ARE
  the names listed.  `Kept.step`: every step is a custody move or no move, provided releases are sound.
-/
import Slurmpp.Lib.Custody
import Slurmpp.Controller.Alloc

namespace Slurmpp.Controller

open List Function

open Text (words joined)
open Custody (Tracks Place Move custody put)

variable {π ι : Type*}

/-! ## What the state shows -/

def namesAt (st : Zht) (c : Text) : List Text :=
  match st c with
  | some v => namesOf v
  | none => []

theorem namesAt_of_some {st : Zht} {c v : Text} (h : st c = some v) : namesAt st c = namesOf v := by
  rw [namesAt, h]

theorem namesAt_insert_self (st : Zht) (c v : Text) : namesAt (st.insert c v) c = namesOf v :=
  namesAt_of_some (Store.insert_self st c v)

theorem namesAt_insert_of_ne {c k : Text} (h : c ≠ k) (st : Zht) (v : Text) :
    namesAt (st.insert k v) c = namesAt st c := by
  rw [namesAt, Store.insert_of_ne h, namesAt]

/-- The (controller, node) pairs listed in the pools. -/
def Conf.listed (C : Conf π ι) (st : Zht) : Set (Text × Text) :=
  {x | C.IsCtrl x.1 ∧ x.2 ∈ namesAt st x.1}

/-- What a thread may still put back. -/
def Proc.claim : Proc → List (Text × Text)
  | .look r _ => r.pairs
  | .take r _ _ => r.pairs
  | .abandon r pc => r.pairsFrom pc.slot
  | .release r pc => r.pairsFrom pc.slot
  | _ => []

def Conf.Ok (C : Conf π ι) : Proc → Prop
  | .look r c => r.Tidy C.cluster ∧ C.IsCtrl c
  | .take r c _ => r.Tidy C.cluster ∧ C.IsCtrl c
  | .abandon r pc => r.Tidy C.cluster ∧ pc.slot < r.numCtrl
  | .holding r => r.Tidy C.cluster
  | .release r pc => pc.slot < r.numCtrl
  | _ => True

/-- Pools and ledger: the names listed and the nodes held show the custody state `A`. -/
structure Books (C : Conf π ι) (A : Text × Text → Place ι) (st : Zht) (held : ι → Finset (Text × Text)) : Prop where
  tracks : Tracks (C.listed st) (fun i => {x | x ∈ held i}) A
  pools : ∀ c v, C.IsCtrl c → st c = some v → ∃ names, Counted v names ∧ names.Nodup
  home : ∀ i, ∀ x ∈ held i, C.IsCtrl x.1

/-- Threads and ledger: what a thread may still put back is held by its job, and claimed once. -/
structure Claims (C : Conf π ι) (proc : π → Proc) (held : ι → Finset (Text × Text)) : Prop where
  ok : ∀ p, C.Ok (proc p)
  nodup : ∀ p, (proc p).claim.Nodup
  backed : ∀ p, ∀ x ∈ (proc p).claim, x ∈ held (C.owner p)
  apart : ∀ p q, p ≠ q → C.owner p = C.owner q → ∀ x ∈ (proc p).claim, x ∉ (proc q).claim

/-- **The invariant**: the state shows a custody state, and nothing that a thread may still do
    can spoil that. -/
structure Kept (C : Conf π ι) (A : Text × Text → Place ι) (s : World π ι) : Prop where
  books : Books C A s.store s.held
  claims : Claims C s.proc s.held

/-! ## Private code keeps records in shape -/

section Private

variable {C : Conf π ι} {r : JobResource}

theorem Conf.loopHead_ok (h : r.Tidy C.cluster) (need rand : Nat) :
    C.Ok (C.cluster.loopHead need rand r) ∧
      ((C.cluster.loopHead need rand r).claim = r.pairs ∨ (C.cluster.loopHead need rand r).claim = []) := by
  rw [Cluster.loopHead]
  cases hc : C.cluster.memList[rand % C.cluster.numCtrl]? with
  | none => exact ⟨trivial, .inr rfl⟩
  | some c =>
    split_ifs with hn
    · exact ⟨⟨h, .inl (mem_of_getElem? hc)⟩, .inl rfl⟩
    · exact ⟨h, .inr rfl⟩

theorem Conf.loopHead_reset_ok (C : Conf π ι) (r : JobResource) (need rand : Nat) :
    C.Ok (C.cluster.loopHead need rand (C.cluster.resetJobResource r)) ∧
      (C.cluster.loopHead need rand (C.cluster.resetJobResource r)).claim = [] := by
  have hb := blank_reset C.cluster r
  obtain ⟨hok, hclaim⟩ := C.loopHead_ok hb.tidy need rand
  refine ⟨hok, hclaim.elim (fun h => ?_) id⟩
  rw [h, JobResource.pairs, hb.pairsFrom_eq]

theorem Conf.again_ok (h : r.Tidy C.cluster) (need rand : Nat) :
    C.Ok (C.cluster.again need rand r) ∧
      ((C.cluster.again need rand r).claim = r.pairs ∨ (C.cluster.again need rand r).claim = []) := by
  rw [Cluster.again, releaseFrom]
  split_ifs with ht hn
  · exact ⟨⟨h, hn⟩, .inl rfl⟩
  · obtain ⟨hok, hclaim⟩ := C.loopHead_reset_ok r need rand
    exact ⟨hok, .inr hclaim⟩
  · exact C.loopHead_ok h need rand

theorem JobResource.Tidy.failed {K : Cluster} (h : r.Tidy K) : (Cluster.failed r).Tidy K :=
  ⟨h.ids, h.allocs, h.ended, h.fresh, h.single⟩

theorem Conf.begin_ok (C : Conf π ι) (p : π) :
    C.Ok (C.cluster.begin (C.selfId p) (C.need p)) ∧ (C.cluster.begin (C.selfId p) (C.need p)).claim = [] := by
  have hb := blank_init C.cluster
  rw [Cluster.begin]
  split_ifs with hn
  · exact ⟨⟨hb.tidy, .inr ⟨p, rfl⟩⟩, hb.pairsFrom_eq 0⟩
  · exact ⟨hb.tidy, rfl⟩

theorem releaseFrom_claim (r : JobResource) (i : Nat) :
    match releaseFrom r i with
    | some pc => pc.slot = i ∧ i < r.numCtrl
    | none => r.pairsFrom i = [] := by
  rw [releaseFrom]
  split_ifs with hi
  · exact ⟨rfl, hi⟩
  · exact JobResource.pairsFrom_of_le (by omega)

theorem Cluster.RelStep.slot_lt {K : Cluster} {st : Zht} {pc pc' : Rel} {o : Out (Except Fault (Option Rel))}
    (h : K.RelStep r st pc o) (hin : pc.slot < r.numCtrl) (hnext : o.next = .ok (some pc')) :
    pc'.slot < r.numCtrl := by
  cases h with
  | outside | null | tokens => cases hnext
  | found | late =>
    cases Except.ok.inj hnext
    exact hin
  | gave i seen new hm hs =>
    have hrf := releaseFrom_claim r (i + 1)
    rw [Except.ok.inj hnext] at hrf
    exact hrf.1 ▸ hrf.2

end Private

/-! ## Claims -/

section Claims

variable [DecidableEq π] {C : Conf π ι} {proc : π → Proc} {held held' : ι → Finset (Text × Text)}
  {p : π} {q : Proc}

/-- **Thread `p` goes on to `q`.**  Of its old claim `rest` remains at most, and `X` comes in,
    which no other thread of the job claims; the other threads' claims must still be covered. -/
theorem Claims.move (h : Claims C proc held) (rest X : List (Text × Text)) (hq : C.Ok q)
    (hrest : rest.Sublist (proc p).claim) (hnd : (rest ++ X).Nodup)
    (hfresh : ∀ p', p' ≠ p → C.owner p' = C.owner p → ∀ x ∈ X, x ∉ (proc p').claim)
    (hclaim : q.claim.Sublist (rest ++ X)) (hnew : ∀ x ∈ q.claim, x ∈ held' (C.owner p))
    (hkeep : ∀ p', p' ≠ p → ∀ x ∈ (proc p').claim, x ∈ held' (C.owner p')) : Claims C (update proc p q) held' := by
  -- a thread other than `p` shares nothing with the new claim of `p`
  have hother : ∀ p', p' ≠ p → C.owner p' = C.owner p → ∀ x ∈ (proc p').claim, x ∉ q.claim := by
    intro p' hp ho x hx hxq
    rcases mem_append.1 (hclaim.subset hxq) with hr | hx'
    · exact h.apart p' p hp ho x hx (hrest.subset hr)
    · exact hfresh p' hp ho x hx' hx
  have hnodup : q.claim.Nodup := hnd.sublist hclaim
  refine ⟨?_, ?_, ?_, ?_⟩
  · exact (forall_update_iff _ fun _ (q' : Proc) => C.Ok q').2 ⟨hq, fun p' _ => h.ok p'⟩
  · exact (forall_update_iff _ fun _ (q' : Proc) => q'.claim.Nodup).2
      ⟨hnodup, fun p' _ => h.nodup p'⟩
  · exact (forall_update_iff _ fun p' (q' : Proc) =>
      ∀ x ∈ q'.claim, x ∈ held' (C.owner p')).2 ⟨hnew, hkeep⟩
  · intro p1 p2 hne ho x h1 h2
    by_cases hp1 : p1 = p
    · subst hp1
      rw [update_self] at h1
      rw [update_of_ne hne.symm] at h2
      exact hother p2 hne.symm ho.symm x h2 h1
    · rw [update_of_ne hp1] at h1
      by_cases hp2 : p2 = p
      · subst hp2
        rw [update_self] at h2
        exact hother p1 hp1 ho x h1 h2
      · rw [update_of_ne hp2] at h2
        exact h.apart p1 p2 hne ho x h1 h2

theorem Claims.quiet (h : Claims C proc held) (hq : C.Ok q)
    (hclaim : q.claim.Sublist (proc p).claim) : Claims C (update proc p q) held :=
  h.move _ [] hq (List.Sublist.refl _) (by simpa using h.nodup p) (by simp)
    (by simpa using hclaim) (fun x hx => h.backed p x (hclaim.subset hx)) fun p' _ => h.backed p'

theorem Claims.complete {r : JobResource} (h : Claims C proc held) (hnd : r.pairs.Nodup)
    (hheld : ∀ x ∈ r.pairs, x ∈ held (C.owner p))
    (hfresh : ∀ q, q ≠ p → C.owner q = C.owner p → ∀ x ∈ r.pairs, x ∉ (proc q).claim) :
    Claims C (update proc p (.beginRelease r)) held := by
  have hbegin : C.Ok (.beginRelease r) ∧ (Proc.beginRelease r).claim.Sublist r.pairs := by
    rw [Proc.beginRelease, releaseFrom]
    split_ifs with hn
    · exact ⟨hn, List.Sublist.refl _⟩
    · exact ⟨trivial, nil_sublist _⟩
  exact h.move [] _ hbegin.1 (nil_sublist _) hnd hfresh hbegin.2
    (fun x hx => hheld x (hbegin.2.subset hx)) fun p' _ => h.backed p'

end Claims

/-! ## Books -/

section Books

variable {C : Conf π ι} {A : Text × Text → Place ι} {st : Zht}
  {held : ι → Finset (Text × Text)} {i : ι} {c seen new : Text} {names ns : List Text}

theorem Books.pools_insert (h : Books C A st held)
    (hnew : C.IsCtrl c → ∃ names, Counted new names ∧ names.Nodup) (c' v : Text) (hc' : C.IsCtrl c')
    (hv : st.insert c new c' = some v) : ∃ names, Counted v names ∧ names.Nodup := by
  by_cases hcc : c' = c
  · subst hcc
    rw [Store.insert_self] at hv
    cases hv
    exact hnew hc'
  · rw [Store.insert_of_ne hcc] at hv
    exact h.pools c' v hc' hv

theorem mem_listed_insert_self (hc : C.IsCtrl c) (hnew : Counted new names) (n : Text) :
    (c, n) ∈ C.listed (st.insert c new) ↔ n ∈ names := by
  simp only [Conf.listed, Set.mem_ofPred_eq, namesAt_insert_self, hnew.namesOf_eq, hc, true_and]

theorem mem_listed_insert_of_ne {c' : Text} (hne : c' ≠ c) (n : Text) :
    (c', n) ∈ C.listed (st.insert c new) ↔ (c', n) ∈ C.listed st := by
  simp only [Conf.listed, Set.mem_ofPred_eq, namesAt_insert_of_ne hne]

theorem mem_listed_of_some (hc : C.IsCtrl c) (hs : st c = some seen) (hn : Counted seen names)
    (n : Text) : (c, n) ∈ C.listed st ↔ n ∈ names := by
  simp only [Conf.listed, Set.mem_ofPred_eq, namesAt_of_some hs, hn.namesOf_eq, hc, true_and]

theorem not_listed_of_none (hs : st c = none) (n : Text) : (c, n) ∉ C.listed st := by
  rintro ⟨-, hx⟩
  simp [namesAt, hs] at hx

section

variable (h : Books C A st held)
include h

/-- Nothing is known under a key that has no pool and under which nothing is held. -/
theorem Books.out_of_none (hs : st c = none) (hnone : ∀ i, ∀ x ∈ held i, x.1 ≠ c)
    (n : Text) : A (c, n) = .out :=
  h.tracks.out_of (not_listed_of_none hs n) fun i hi => hnone i _ hi rfl

theorem Books.insert (hc : ¬C.IsCtrl c) : Books C A (st.insert c new) held := by
  refine ⟨h.tracks.congr ?_ fun _ _ => Iff.rfl, h.pools_insert fun hc' => absurd hc' hc, h.home⟩
  rintro ⟨c', n⟩
  by_cases hcc : c' = c
  · subst hcc
    exact iff_of_false (fun hx => hc hx.1) fun hx => hc hx.1
  · exact mem_listed_insert_of_ne hcc n

variable [DecidableEq ι]

theorem Books.take {k : Nat} (hc : C.IsCtrl c) (hs : st c = some seen)
    (hn : Counted seen names) (hnd : names.Nodup) :
    ∃ A', custody.step A (.take i (under c (names.take k))) = some A' ∧
      Books C A' (st.insert c (poolText (names.drop k))) ((Event.took c (names.take k)).post i held) := by
  have hnew : Counted (poolText (names.drop k)) (names.drop k) :=
    counted_poolText fun n hn' => hn.isWord n (mem_of_mem_drop hn')
  have hfree : ∀ x ∈ under c (names.take k), x ∈ C.listed st :=
    List.forall_mem_map.2 fun n hm => (mem_listed_of_some hc hs hn n).2 (mem_of_mem_take hm)
  -- the pool keeps exactly the names that were not taken
  have hsplit : ∀ n, n ∈ names.drop k ↔ n ∈ names ∧ n ∉ names.take k := by
    intro n
    have happ := take_append_drop k names
    obtain ⟨-, -, hd⟩ := nodup_append.1 (happ.symm ▸ hnd)
    constructor
    · exact fun hn' => ⟨mem_of_mem_drop hn', fun ht => hd n ht n hn' rfl⟩
    · rintro ⟨hm, hnt⟩
      rw [← happ, mem_append] at hm
      exact hm.resolve_left hnt
  have hrest : ∀ x, x ∈ C.listed (st.insert c (poolText (names.drop k))) ↔
      x ∈ C.listed st ∧ x ∉ under c (names.take k) := by
    rintro ⟨c', n⟩
    by_cases hcc : c' = c
    · subst hcc
      rw [mem_listed_insert_self hc hnew, mem_listed_of_some hc hs hn, hsplit]
      simp
    · rw [mem_listed_insert_of_ne hcc]
      simp [hcc]
  obtain ⟨hstep, htracks⟩ := h.tracks.take (J := fun j =>
    {x | x ∈ (Event.took c (names.take k)).post i held j}) hfree hrest fun j x => mem_post_took
  refine ⟨_, hstep, htracks, ?_, ?_⟩
  · exact h.pools_insert fun _ => ⟨_, hnew, hnd.sublist (drop_sublist k names)⟩
  · intro j x hx
    rcases mem_post_took.1 hx with hx | ⟨-, hx⟩
    · exact h.home j x hx
    · exact (mem_under.1 hx).1 ▸ hc

/-- **A successful swap of `release_res` is the custody move `give`.**  Nodes that are held have a
    home, so a text under a key that is no controller gains none. -/
theorem Books.give (hs : st c = some seen)
    (hheld : ∀ x ∈ under c ns, x ∈ held i) (hns : ns.Nodup)
    (hnew : ∀ names, Counted seen names → Counted new (names ++ ns)) :
    ∃ A', custody.step A (.give i (under c ns)) = some A' ∧
      Books C A' (st.insert c new) ((Event.gave c ns).post i held) := by
  have hrest : ∀ x, x ∈ C.listed (st.insert c new) ↔ x ∈ C.listed st ∨ x ∈ under c ns := by
    rintro ⟨c', n⟩
    by_cases hcc : c' = c
    · subst hcc
      by_cases hc : C.IsCtrl c'
      · obtain ⟨names, hn, -⟩ := h.pools c' seen hc hs
        rw [mem_listed_insert_self hc (hnew names hn), mem_listed_of_some hc hs hn]
        simp
      · refine iff_of_false (fun hx => hc hx.1) ?_
        rintro (hx | hx)
        · exact hc hx.1
        · exact hc (h.home i _ (hheld _ hx))
    · rw [mem_listed_insert_of_ne hcc]
      simp [hcc]
  obtain ⟨hstep, htracks⟩ := h.tracks.give hheld hrest fun j x => mem_post_gave
  refine ⟨_, hstep, htracks, h.pools_insert fun hc => ?_, fun j x hx => h.home j x (mem_post_gave.1 hx).1⟩
  obtain ⟨names, hn, hnd⟩ := h.pools c seen hc hs
  refine ⟨names ++ ns, hnew names hn, nodup_append.2 ⟨hnd, hns, ?_⟩⟩
  -- a node that comes back was held, so it was not listed
  rintro a ha b hb rfl
  have hx : (c, a) ∈ under c ns := mem_under.2 ⟨rfl, hb⟩
  exact h.tracks.not_free (hheld _ hx) ((mem_listed_of_some hc hs hn a).2 ha)

theorem Books.arrive (hc : C.IsCtrl c) (hs : st c = none)
    (hnone : ∀ i, ∀ x ∈ held i, x.1 ≠ c) (hn : Counted new names) (hnd : names.Nodup) :
    ∃ A', custody.step A (.arrive (under c names)) = some A' ∧ Books C A' (st.insert c new) held := by
  have hnil : ∀ n, (c, n) ∉ C.listed st := not_listed_of_none hs
  have hrest : ∀ x, x ∈ C.listed (st.insert c new) ↔ x ∈ C.listed st ∨ x ∈ under c names := by
    rintro ⟨c', n⟩
    by_cases hcc : c' = c
    · subst hcc
      rw [mem_listed_insert_self hc hn]
      simp [hnil n]
    · rw [mem_listed_insert_of_ne hcc]
      simp [hcc]
  have hout : ∀ x ∈ under c names, x ∉ C.listed st ∧ ∀ j, x ∉ {x | x ∈ held j} :=
    List.forall_mem_map.2 fun n _ => ⟨hnil n, fun j hj => hnone j _ hj rfl⟩
  obtain ⟨hstep, htracks⟩ := h.tracks.arrive hout hrest
    fun _ _ => Iff.rfl
  exact ⟨_, hstep, htracks, h.pools_insert fun _ => ⟨names, hn, hnd⟩, h.home⟩

end

end Books

/-! ## Steps -/

section Steps

variable {C : Conf π ι} {A A' : Text × Text → Place ι} {s t : World π ι} {p : π} {q : Proc}

theorem Kept.nodup_took (h : Kept C A s) {c seen : Text} {names : List Text} (hc : C.IsCtrl c)
    (hs : s.store c = some seen) (hn : Counted seen names) (hnd : names.Nodup) (k : Nat) :
    (∀ x ∈ under c (names.take k), ∀ i, x ∉ s.held i) ∧ ((s.proc p).claim ++ under c (names.take k)).Nodup := by
  have hfresh : ∀ x ∈ under c (names.take k), ∀ i, x ∉ s.held i := List.forall_mem_map.2 fun n hm i hi =>
    h.books.tracks.not_free hi ((mem_listed_of_some hc hs hn n).2 (mem_of_mem_take hm))
  refine ⟨hfresh, nodup_append.2
    ⟨h.claims.nodup p, nodup_under.2 (hnd.sublist (take_sublist k names)), ?_⟩⟩
  rintro a ha b hb rfl
  exact hfresh a hb _ (h.claims.backed p a ha)

variable [DecidableEq ι]

/-- No custody move, or one that brings nothing new. -/
def Refined (A A' : Text × Text → Place ι) : Prop :=
  A' = A ∨ ∃ m : Move (Text × Text) ι, m.Inner ∧ custody.step A m = some A'

theorem Refined.reach {A0 : Text × Text → Place ι} (hA : Refined A A')
    (h : custody.Reach (fun _ m => m.Inner) A0 A) : custody.Reach (fun _ m => m.Inner) A0 A' := by
  rcases hA with rfl | ⟨m, hm, hstep⟩
  · exact h
  · exact .step h hm hstep

theorem Refined.out_iff (hA : Refined A A') (x : Text × Text) : A' x = .out ↔ A x = .out := by
  rcases hA with rfl | ⟨m, hm, hstep⟩
  · exact Iff.rfl
  · exact Custody.known_iff (.step .start hm hstep) x

variable [DecidableEq π]

theorem Kept.quiet (h : Kept C A s) (hq : C.Ok q) (hclaim : q.claim.Sublist (s.proc p).claim) :
    ∃ A', Kept C A' (s.moved C p ⟨s.store, q, .quiet⟩) ∧ Refined A A' :=
  ⟨A, ⟨h.books, h.claims.quiet hq hclaim⟩, .inl rfl⟩

theorem Kept.took (h : Kept C A s) {c seen : Text} {names : List Text} {k : Nat}
    (hc : C.IsCtrl c) (hs : s.store c = some seen) (hn : Counted seen names) (hnd : names.Nodup)
    (hq : C.Ok q) (hclaim : q.claim.Sublist ((s.proc p).claim ++ under c (names.take k))) :
    ∃ A', Kept C A' (s.moved C p
        ⟨s.store.insert c (poolText (names.drop k)), q, .took c (names.take k)⟩) ∧ Refined A A' := by
  obtain ⟨A', hstep, hbooks⟩ := h.books.take hc hs hn hnd
  obtain ⟨hfresh, hdistinct⟩ := h.nodup_took hc hs hn hnd k
  refine ⟨A', ⟨hbooks, ?_⟩, .inr ⟨.take _ _, trivial, hstep⟩⟩
  refine h.claims.move _ _ hq (List.Sublist.refl _) hdistinct
    (fun p' _ _ x hx hx' => hfresh x hx _ (h.claims.backed p' x hx')) hclaim ?_
    fun p' _ x hx => mem_post_took.2 (.inl (h.claims.backed p' x hx))
  intro x hx
  refine mem_post_took.2 ?_
  rcases mem_append.1 (hclaim.subset hx) with hx | hx
  · exact .inl (h.claims.backed p x hx)
  · exact .inr ⟨rfl, hx⟩

/-- What `release_res` has still to put back when it goes on at `e`. -/
def claimAt (r : JobResource) : Except Fault (Option Rel) → List (Text × Text)
  | .ok (some pc) => r.pairsFrom pc.slot
  | _ => []

theorem Kept.rel (h : Kept C A s) {r : JobResource} {pc : Rel}
    {o : Out (Except Fault (Option Rel))} (hproc : (s.proc p).claim = r.pairsFrom pc.slot)
    (hin : pc.slot < r.numCtrl) (hr : C.cluster.RelStep r s.store pc o) (next : Except Fault (Option Rel) → Proc)
    (hnext : ∀ e, (∀ pc', e = .ok (some pc') → pc'.slot < r.numCtrl) →
      C.Ok (next e) ∧ (next e).claim = claimAt r e) :
    ∃ A', Kept C A' (s.moved C p ⟨o.store, next o.next, o.event⟩) ∧ Refined A A' := by
  obtain ⟨hok, hclaim⟩ := hnext o.next fun pc' he => hr.slot_lt hin he
  cases hr with
  | outside | null | tokens => exact h.quiet hok (by rw [hclaim]; exact nil_sublist _)
  | found | late => exact h.quiet hok (by rw [hclaim, hproc]; exact List.Sublist.refl _)
  | gave i seen new hm hseen =>
    have hsplit : (s.proc p).claim = r.slotPairs i ++ r.pairsFrom (i + 1) := by
      rw [hproc]
      exact JobResource.pairsFrom_of_lt hin
    have hnd : (r.slotPairs i ++ r.pairsFrom (i + 1)).Nodup := hsplit ▸ h.claims.nodup p
    obtain ⟨hslot, -, hdisj⟩ := nodup_append.1 hnd
    have hheld : ∀ x ∈ r.slotPairs i, x ∈ s.held (C.owner p) := fun x hx =>
      h.claims.backed p x (hsplit ▸ mem_append_left _ hx)
    -- the merged text counts the old names and the ones put back
    have hnew : ∀ names, Counted seen names → Counted new (names ++ words ',' (r.nodeAlloc.getD i [])) := by
      intro names hn
      rw [hn.mergeResStr] at hm
      split_ifs at hm
      cases hm
      exact counted_mergeText hn.isWord fun n hn' => Text.isWord_of_mem_words hn'
    obtain ⟨A', hstep, hbooks⟩ := h.books.give hseen hheld (nodup_under.1 hslot) hnew
    have hrest : claimAt r (.ok (releaseFrom r (i + 1))) = r.pairsFrom (i + 1) := by
      have hrf := releaseFrom_claim r (i + 1)
      cases hr' : releaseFrom r (i + 1) with
      | none =>
        rw [hr'] at hrf
        exact hrf.symm
      | some pc' =>
        rw [hr'] at hrf
        exact congrArg r.pairsFrom hrf.1
    rw [hrest] at hclaim
    refine ⟨A', ⟨hbooks, ?_⟩, .inr ⟨.give _ _, trivial, hstep⟩⟩
    refine h.claims.move (r.pairsFrom (i + 1)) [] hok
      (hsplit ▸ sublist_append_right _ _) (by simpa using (nodup_append.1 hnd).2.1)
      (by simp) (by rw [hclaim, append_nil]) ?_ ?_
    · intro x hx
      rw [hclaim] at hx
      refine mem_post_gave.2 ⟨h.claims.backed p x (hsplit ▸ mem_append_right _ hx), ?_⟩
      exact fun hg => hdisj x hg.2 x hx rfl
    · intro p' hp x hx
      refine mem_post_gave.2 ⟨h.claims.backed p' x hx, fun hg => ?_⟩
      exact h.claims.apart p' p hp hg.1 x hx (hsplit ▸ mem_append_left _ hg.2)

/-- **Every step of a thread** is a custody move or no move. -/
theorem Kept.act (h : Kept C A s) {rand : Nat} {o : Out Proc}
    (ho : C.cluster.act (C.selfId p) (C.need p) rand s.store (s.proc p) = some o) :
    ∃ A', Kept C A' (s.moved C p o) ∧ Refined A A' := by
  have hst := Cluster.act_step ho
  have hok := h.claims.ok p
  generalize hq : s.proc p = q at hst hok
  -- after a failed try the claim is as before, or dropped with the whole record
  have hfail : ∀ r : JobResource, r.Tidy C.cluster → (s.proc p).claim = r.pairs → ∃ A', Kept C A' (s.moved C p
        ⟨s.store, C.cluster.again (C.need p) rand (Cluster.failed r), .quiet⟩) ∧
        Refined A A' := by
    intro r ht hclaim
    obtain ⟨hok', hc⟩ := C.again_ok ht.failed (C.need p) rand
    refine h.quiet hok' ?_
    rw [hclaim]
    rcases hc with hc | hc
    · rw [hc]
      exact List.Sublist.refl _
    · rw [hc]
      exact nil_sublist _
  cases hst with
  | missing r | refused r => exact hfail r hok.1 (by rw [hq, Proc.claim])
  | found | late => exact h.quiet hok (by rw [hq]; exact List.Sublist.refl _)
  | broken r c seen f hv => exact h.quiet trivial (nil_sublist _)
  | spilled r c seen num nl new ha hs hu =>
    obtain ⟨names, hn, hnd⟩ := h.books.pools c seen hok.2 hs
    rw [hn.doAllocate] at ha
    split_ifs at ha
    cases ha
    rw [Text.words_joined fun n hm => hn.isWord n (mem_of_mem_take hm)]
    exact h.took hok.2 hs hn hnd trivial (nil_sublist _)
  | took r r' c seen num nl new ha hs hu =>
    obtain ⟨names, hn, hnd⟩ := h.books.pools c seen hok.2 hs
    rw [hn.doAllocate] at ha
    split_ifs at ha
    cases ha
    have hwords := Text.words_joined fun n hm =>
      hn.isWord n (mem_of_mem_take (i := min names.length (C.need p - r.numNode)) hm)
    obtain ⟨hok', hc⟩ := C.again_ok (hok.1.update hu) (C.need p) rand
    have hpairs := hok.1.pairs_update hu
    rw [hwords] at hpairs ⊢
    refine h.took hok.2 hs hn hnd hok' ?_
    rw [hq]
    rcases hc with hc | hc
    · rw [hc, hpairs]
      split_ifs
      · exact List.Sublist.refl _
      · exact (append_sublist_append_left _).2 (nil_sublist _)
    · rw [hc]
      exact nil_sublist _
  | abandon r pc o hr =>
    refine h.rel (by rw [hq, Proc.claim]) hok.2 hr _ ?_
    intro e he
    match e with
    | .error f => exact ⟨trivial, rfl⟩
    | .ok (some pc') => exact ⟨⟨hok.1, he pc' rfl⟩, rfl⟩
    | .ok none => exact C.loopHead_reset_ok r _ _
  | release r pc o hr =>
    refine h.rel (by rw [hq, Proc.claim]) hok hr _ ?_
    intro e he
    match e with
    | .error f => exact ⟨trivial, rfl⟩
    | .ok (some pc') => exact ⟨he pc' rfl, rfl⟩
    | .ok none => exact ⟨trivial, rfl⟩

/-- **What makes a move sound.**  A thread calls `release_res` only on a record of distinct nodes
    that its job holds and that no other thread of the job is about to put back (so every node is
    released at most once); other code does not write under the controllers' keys. -/
def Conf.Sound (C : Conf π ι) (s : World π ι) : Label π → Prop
  | .complete p r =>
    r.pairs.Nodup ∧ (∀ x ∈ r.pairs, x ∈ s.held (C.owner p)) ∧
      ∀ q, q ≠ p → C.owner q = C.owner p → ∀ x ∈ r.pairs, x ∉ (s.proc q).claim
  | .insert k _ => ¬C.IsCtrl k
  | _ => True

theorem Kept.step (h : Kept C A s) {l : Label π} (hl : C.Sound s l)
    (hs : (allocator C).step s l = some t) : ∃ A', Kept C A' t ∧ Refined A A' := by
  cases l with
  | start p =>
    obtain ⟨-, rfl⟩ := start_eq hs
    obtain ⟨hok, hclaim⟩ := C.begin_ok p
    exact ⟨A, ⟨h.books, h.claims.quiet hok (by rw [hclaim]; exact nil_sublist _)⟩, .inl rfl⟩
  | act p rand =>
    obtain ⟨o, ho, rfl⟩ := Option.map_eq_some_iff.1 hs
    exact h.act ho
  | complete p r =>
    obtain rfl := complete_eq hs
    exact ⟨A, ⟨h.books, h.claims.complete hl.1 hl.2.1 hl.2.2⟩, .inl rfl⟩
  | insert k v =>
    cases hs
    exact ⟨A, ⟨h.books.insert hl, h.claims⟩, .inl rfl⟩

end Steps

/-! ## Mutual exclusion -/

section Exclusion

variable {C : Conf π ι} {s₀ s : World π ι}

/-- Where a run begins: no thread has started, no job holds anything, and the pools list pairwise
    distinct names, each pool's count first. -/
structure Conf.Start (C : Conf π ι) (s : World π ι) : Prop where
  idle : ∀ p, s.proc p = .idle
  empty : ∀ i, s.held i = ∅
  pools : ∀ c v, C.IsCtrl c → s.store c = some v → ∃ names, Counted v names ∧ names.Nodup
  distinct : ∀ c c' n, C.IsCtrl c → C.IsCtrl c' → n ∈ namesAt s.store c → n ∈ namesAt s.store c' → c = c'

open Classical in
theorem kept_of_idle (hidle : ∀ p, s.proc p = .idle) (hempty : ∀ i, s.held i = ∅)
    (hpools : ∀ c v, C.IsCtrl c → s.store c = some v → ∃ names, Counted v names ∧ names.Nodup) :
    ∃ A, Kept C A s ∧ ∀ x, A x ≠ .out ↔ x ∈ C.listed s.store := by
  have hclaim : ∀ p, (s.proc p).claim = [] := by
    intro p
    rw [hidle p]
    rfl
  refine ⟨fun x => if x ∈ C.listed s.store then .free else .out, ⟨⟨⟨?_, ?_⟩, hpools, ?_⟩, ?_⟩, ?_⟩
  · intro x
    split_ifs with hx <;> simp [hx]
  · intro i x
    rw [hempty i]
    split_ifs <;> simp
  · intro i x hx
    simp [hempty i] at hx
  · refine ⟨fun p => ?_, fun p => ?_, fun p x hx => ?_, fun p q _ _ x hx => ?_⟩
    · rw [hidle p]
      trivial
    · rw [hclaim]
      exact nodup_nil
    · simp [hclaim] at hx
    · simp [hclaim] at hx
  · intro x
    dsimp only
    split_ifs with hx <;> simp [hx]

theorem Books.nodup_namesAt {A : Text × Text → Place ι} {st : Zht} {held : ι → Finset (Text × Text)}
    (h : Books C A st held) {c : Text} (hc : C.IsCtrl c) : (namesAt st c).Nodup := by
  cases hv : st c with
  | none => simp [namesAt, hv]
  | some v =>
    obtain ⟨names, hcount, hnd⟩ := h.pools c v hc hv
    rwa [namesAt_of_some hv, hcount.namesOf_eq]

variable [DecidableEq ι]

theorem Kept.exclusive {A0 A : Text × Text → Place ι} {st0 : Zht} (hK : Kept C A s)
    (hr : custody.Reach (fun _ m => m.Inner) A0 A) (hA0 : ∀ x, A0 x ≠ .out ↔ x ∈ C.listed st0)
    (hdistinct : ∀ c c' n, C.IsCtrl c → C.IsCtrl c' → n ∈ namesAt st0 c → n ∈ namesAt st0 c' →
      c = c') :
    (∀ i j c c' n, (c, n) ∈ s.held i → (c', n) ∈ s.held j → i = j) ∧
      ∀ i c c' n, (c, n) ∈ s.held i → C.IsCtrl c' → n ∉ namesAt s.store c' := by
  -- a name is known under one controller only, and custody runs keep what is known
  have hhome : ∀ c c' n, A (c, n) ≠ .out → A (c', n) ≠ .out → c = c' := by
    intro c c' n hc hc'
    rw [ne_eq, Custody.known_iff hr, ← ne_eq, hA0] at hc hc'
    exact hdistinct c c' n hc.1 hc'.1 hc.2 hc'.2
  constructor
  · intro i j c c' n hi hj
    have hc := hhome c c' n (hK.books.tracks.known_of_held hi) (hK.books.tracks.known_of_held hj)
    subst hc
    exact hK.books.tracks.exclusive hi hj
  · intro i c c' n hi hc' hn
    have hfree : (c', n) ∈ C.listed s.store := ⟨hc', hn⟩
    have hc := hhome c c' n (hK.books.tracks.known_of_held hi)
      (hK.books.tracks.known_of_free hfree)
    subst hc
    exact hK.books.tracks.not_free hi hfree

variable [DecidableEq π]

/-- **Every sound run of the allocator refines a run of custody** without arrivals. -/
theorem reach_kept {A0 : Text × Text → Place ι} (h0 : Kept C A0 s₀) (h : (allocator C).Reach C.Sound s₀ s) :
    ∃ A, Kept C A s ∧ custody.Reach (fun _ m => m.Inner) A0 A := by
  refine h.invariant (I := fun u => ∃ A, Kept C A u ∧ custody.Reach (fun _ m => m.Inner) A0 A)
    ⟨A0, h0, .start⟩ ?_
  rintro u l v ⟨A, hK, hr⟩ hl hs
  obtain ⟨A', hK', hA⟩ := hK.step hl hs
  exact ⟨A', hK', hA.reach hr⟩

/-- **Mutual exclusion.**  In every state that sound steps reach, in whatever order the threads'
    store operations come, no node name is held by two jobs, and no name that a job holds is
    listed in any pool. -/
theorem held_exclusive (h0 : C.Start s₀) (h : (allocator C).Reach C.Sound s₀ s) :
    (∀ i j c c' n, (c, n) ∈ s.held i → (c', n) ∈ s.held j → i = j) ∧
      ∀ i c c' n, (c, n) ∈ s.held i → C.IsCtrl c' → n ∉ namesAt s.store c' := by
  obtain ⟨A₀, hK₀, hA₀⟩ := kept_of_idle h0.idle h0.empty h0.pools
  obtain ⟨A, hK, hr⟩ := reach_kept hK₀ h
  exact hK.exclusive hr hA₀ h0.distinct

instance [Fintype π] (C : Conf π ι) (c : Text) : Decidable (C.IsCtrl c) :=
  inferInstanceAs (Decidable (_ ∨ _))

instance [Fintype π] (C : Conf π ι) (s : World π ι) : ∀ l, Decidable (C.Sound s l)
  | .start _ => inferInstanceAs (Decidable True)
  | .act _ _ => inferInstanceAs (Decidable True)
  | .complete _ _ => inferInstanceAs (Decidable (_ ∧ _))
  | .insert _ _ => inferInstanceAs (Decidable ¬_)

def pairConf : Conf (Fin 2) (Fin 2) where
  cluster := ⟨2, ["a".toList, "b".toList]⟩
  selfId _ := "a".toList
  need _ := 1
  owner p := p

def pairStart : World (Fin 2) (Fin 2) where
  store := Store.insert (Store.insert (fun _ => none) "a".toList "2,n1,n2".toList)
    "b".toList "1,m1".toList
  proc _ := .idle
  held _ := ∅
  gave _ := []

/-- Both threads read the pool; the second one's swap is refused and retried; then the first job's
    nodes are released. -/
def pairRun : List (Label (Fin 2)) :=
  [.start 0, .start 1, .act 0 0, .act 1 0, .act 0 0, .act 1 0, .act 1 1,
    .complete 0 ⟨0, 1, "n1".toList, "a,".toList, 1, ["a".toList, []], ["n1,".toList, []], true⟩,
    .act 0 0, .act 0 0]

theorem pairStart_start : pairConf.Start pairStart := by
  have hctrl : ∀ c, pairConf.IsCtrl c → c = "a".toList ∨ c = "b".toList := by
    rintro c (hc | ⟨p, hp⟩)
    · simpa [pairConf] using hc
    · exact .inl hp.symm
  refine ⟨fun _ => rfl, fun _ => rfl, ?_, ?_⟩
  · rintro c v hc hv
    rcases hctrl c hc with rfl | rfl
    · cases hv
      exact ⟨["n1".toList, "n2".toList], by decide, by decide⟩
    · cases hv
      exact ⟨["m1".toList], by decide, by decide⟩
  · have hd : ∀ n ∈ namesAt pairStart.store "a".toList, n ∉ namesAt pairStart.store "b".toList := by decide
    intro c c' n hc hc'
    rcases hctrl c hc with rfl | rfl <;> rcases hctrl c' hc' with rfl | rfl
    · exact fun _ _ => rfl
    · exact fun h h' => absurd h' (hd n h)
    · exact fun h h' => absurd h (hd n h')
    · exact fun _ _ => rfl

theorem held_exclusive_pair :
    ∃ s, (allocator pairConf).Reach pairConf.Sound pairStart s ∧
      s.held 1 = {("a".toList, "n2".toList)} ∧ namesAt s.store "a".toList = ["n1".toList] ∧
      (∀ i j c c' n, (c, n) ∈ s.held i → (c', n) ∈ s.held j → i = j) ∧
      ∀ i c c' n, (c, n) ∈ s.held i → pairConf.IsCtrl c' → n ∉ namesAt s.store c' := by
  have hr : (allocator pairConf).Reach pairConf.Sound pairStart _ :=
    .of_run pairRun .start (by decide) rfl
  exact ⟨_, hr, by decide, by decide, held_exclusive pairStart_start hr⟩

/-- **No node is lost, none appears, and none changes its pool.**  In every state that sound steps reach, a pool and
    what jobs hold from it are the nodes the pool had at the beginning; so when no job holds any, it has them all
    again, each once. -/
theorem nodes_conserved (h0 : C.Start s₀) (h : (allocator C).Reach C.Sound s₀ s) {c : Text} (hc : C.IsCtrl c) :
    (∀ n, n ∈ namesAt s₀.store c ↔ n ∈ namesAt s.store c ∨ ∃ i, (c, n) ∈ s.held i) ∧
      ((∀ i, s.held i = ∅) → (namesAt s.store c).Perm (namesAt s₀.store c)) := by
  obtain ⟨A₀, hK₀, hA₀⟩ := kept_of_idle h0.idle h0.empty h0.pools
  obtain ⟨A, hK, hr⟩ := reach_kept hK₀ h
  have hsame : ∀ n, n ∈ namesAt s₀.store c ↔ n ∈ namesAt s.store c ∨ ∃ i, (c, n) ∈ s.held i := by
    intro n
    have hknown : n ∈ namesAt s₀.store c ↔ A (c, n) ≠ .out := by
      rw [ne_eq, Custody.known_iff hr, ← ne_eq, hA₀]
      exact (and_iff_right hc).symm
    rw [hknown]
    constructor
    · intro hn
      exact (hK.books.tracks.free_or_held hn).imp_left And.right
    · rintro (hn | ⟨i, hi⟩)
      · exact hK.books.tracks.known_of_free ⟨hc, hn⟩
      · exact hK.books.tracks.known_of_held hi
  refine ⟨hsame, fun hempty => ?_⟩
  rw [perm_ext_iff_of_nodup (hK.books.nodup_namesAt hc) (hK₀.books.nodup_namesAt hc)]
  intro n
  simp [hsame n, hempty]

theorem nodes_conserved_pair : ∃ s, (allocator pairConf).run pairStart pairRun = some s ∧
    ∀ n, n ∈ ["n1".toList, "n2".toList] ↔ n ∈ namesAt s.store "a".toList ∨ ∃ i, ("a".toList, n) ∈ s.held i :=
  ⟨_, rfl, (nodes_conserved pairStart_start (.of_run pairRun .start (by decide) rfl) (.inr ⟨0, rfl⟩)).1⟩

end Exclusion

end Slurmpp.Controller
