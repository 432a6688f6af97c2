/-
  No node is lost: when the job's record says exactly what the job holds.

  `release_res` puts back what the record counts.  Two slips lose nodes: `find_exist` takes the first empty slot for a
  hit, so the nodes of a SECOND controller are filed in slot 1, which is never counted; and `reset_job_resource`
  keeps `num_ctrl`, so that after an abandoned attempt `release_res` crashes on an empty counted slot.

  In a `Steady` run no nodes are filed behind an empty counted slot and completion releases once: every record is
  `Backed`.  In a `Plain` run, moreover, nodes are filed only in a record that is empty or whose first slot is that
  controller's: the record is `Exact`.  `record_exact` is the whole statement.
-/
import Slurmpp.Controller.Pool

namespace Slurmpp.Controller

open List Option Function

open Text (words joined IsWord)
open Custody (Tracks Place Move custody put)

variable {π ι : Type*}

/-! ## What a thread's record says -/

/-- The nodes a thread's record counts: all of them while it allocates or holds, those still to be
    put back while it releases. -/
def Proc.record : Proc → List (Text × Text)
  | .holding r => r.pairs
  | q => q.claim

/-- A thread that has called `release_res` on completion. -/
def Proc.isRelease : Proc → Bool
  | .release _ _ | .released => true
  | _ => false

def Proc.isHolding : Proc → Bool
  | .holding _ => true
  | _ => false

/-- A thread in `allocate_res`, or back from it. -/
def Proc.isAlloc : Proc → Bool
  | .look _ _ | .take _ _ _ | .abandon _ _ | .holding _ => true
  | _ => false

/-- Every counted slot is inside the arrays and lists a node. -/
def JobResource.Stands (r : JobResource) : Prop :=
  ∀ j < r.numCtrl, (j < r.ctrlIds2.length ∧ j < r.nodeAlloc.length) ∧ r.slotPairs j ≠ []

/-- A record whose first slot is empty is all empty, and counts at most that slot. -/
def JobResource.Lone (K : Cluster) (r : JobResource) : Prop :=
  r.ctrlIds2.getD 0 [] = [] → r.Blank K ∧ r.numCtrl ≤ 1

/-- No empty slot is counted: the record is not the leftover of an abandoned attempt. -/
def JobResource.Clean (r : JobResource) : Prop := r.ctrlIds2.getD 0 [] = [] → r.numCtrl = 0

/-- No thread outside its arrays, and records of one controller. -/
def Shape (K : Cluster) : Proc → Prop
  | .look r _ => r.Lone K
  | .take r _ _ => r.Lone K
  | .abandon r _ => r.Lone K
  | .holding r => r.Stands
  | .release r _ => r.Stands
  | .fault _ => False
  | .idle | .released => True

/-- Thread `p` is the one whose record counts: it has started, and the job's other threads have
    not, or have already handed their record over. -/
def Bears (C : Conf π ι) (s : World π ι) (p : π) : Prop :=
  s.proc p ≠ .idle ∧ ∀ q, q ≠ p → C.owner q = C.owner p → s.proc q = .idle ∨ (s.proc q).isHolding = true

/-- **What a record counts, the job holds.** -/
structure Backed (C : Conf π ι) (s : World π ι) : Prop where
  backed : ∀ p, Bears C s p → ∀ x ∈ (s.proc p).record, x ∈ s.held (C.owner p)
  compat : ∀ p q, p ≠ q → C.owner p = C.owner q → s.proc p ≠ .idle → s.proc q ≠ .idle →
    (s.proc p).isHolding = true ∧ (s.proc q).isRelease = true ∨
      (s.proc p).isRelease = true ∧ (s.proc q).isHolding = true
  shape : ∀ p, Shape C.cluster (s.proc p)
  nodup : ∀ p, (s.proc p).record.Nodup
  stored : ∀ i, ∀ x ∈ s.held i, s.store x.1 ≠ none

/-- **The record counts all that the job holds.** -/
structure Exact (C : Conf π ι) (s : World π ι) : Prop where
  counts : ∀ p, Bears C s p → ∀ x ∈ s.held (C.owner p), x ∈ (s.proc p).record
  clear : ∀ i, (∀ p, C.owner p = i → s.proc p = .idle) → s.held i = ∅

/-! ## The conditions -/

/-- A thread about to file nodes has a clean record with room for them, and `release_res` looks up
    no empty name. -/
def Cluster.Steadies (K : Cluster) (st : Zht) (need : Nat) : Proc → Prop
  | .take r c seen =>
    st c = some seen → K.doAllocate seen (need - r.numNode) ≠ .refused →
      r.Clean ∧ (r.ctrlIds2.getD 0 [] = [] ∨ r.ctrlIds2.getD 0 [] = c ∨ 2 ≤ K.numCtrl)
  | .abandon r (.lookup i) => r.ctrlIds2.getD i [] ≠ []
  | _ => True

/-- A thread about to file nodes has a record that is empty, or begins with their controller. -/
def Cluster.Joins (K : Cluster) (st : Zht) (need : Nat) : Proc → Prop
  | .take r c seen =>
    st c = some seen → K.doAllocate seen (need - r.numNode) ≠ .refused →
      r.ctrlIds2.getD 0 [] = [] ∨ r.ctrlIds2.getD 0 [] = c
  | _ => True

/-- The thread has returned `r` from `allocate_res`, or a record that counts the same nodes. -/
def Proc.Returned (r : JobResource) : Proc → Prop
  | .holding r₀ => r = r₀ ∨ r.pairs = r₀.pairs ∧ r.Stands
  | _ => False

/-- **Steady steps.**  One thread of a job allocates, and it `Steadies`; on completion
    `release_res` is called once, on the record `allocate_res` returned; other code writes neither
    under a controller's key nor under the empty one. -/
def Conf.Steady (C : Conf π ι) (s : World π ι) : Label π → Prop
  | .start p => ∀ q, q ≠ p → C.owner q = C.owner p → s.proc q = .idle
  | .act p _ => C.cluster.Steadies s.store (C.need p) (s.proc p)
  | .complete q r =>
    ∃ p, (s.proc p).Returned r ∧ C.owner p = C.owner q ∧ (q = p ∨ s.proc q = .idle) ∧
      ∀ p', p' ≠ p → p' ≠ q → C.owner p' = C.owner q → s.proc p' = .idle
  | .insert k _ => ¬C.IsCtrl k ∧ k ≠ []

/-- **Plain steps** are steady, and file nodes only with those of the same controller. -/
def Conf.Plain (C : Conf π ι) (s : World π ι) (l : Label π) : Prop :=
  C.Steady s l ∧
    match l with
    | .act p _ => C.cluster.Joins s.store (C.need p) (s.proc p)
    | _ => True

theorem Proc.Returned.holding {r : JobResource} {q : Proc} (h : q.Returned r) :
    ∃ r₀, q = .holding r₀ ∧ (r = r₀ ∨ r.pairs = r₀.pairs ∧ r.Stands) := by
  cases q with
  | holding r₀ => exact ⟨r₀, rfl, h⟩
  | _ => exact h.elim

/-! ## Private code -/

section Private

variable {K : Cluster} {need rand : Nat} {r : JobResource}

section

variable (hK : 0 < K.numCtrl)
include hK

theorem loopHead_eq : ∃ c, K.loopHead need rand r = if r.numNode < need then .look r c else .holding r := by
  have hlt : rand % K.numCtrl < K.memList.length := Nat.mod_lt _ hK
  exact ⟨K.memList[rand % K.numCtrl], by rw [Cluster.loopHead, getElem?_eq_getElem hlt]⟩

/-- What `allocate_res` goes on to from a record that counts `X`. -/
structure GoesOn (K : Cluster) (X : List (Text × Text)) (q : Proc) : Prop where
  record : q.record = X
  shape : Shape K q
  alloc : q.isAlloc = true

theorem goesOn_reset (hneed : 0 < need) (hn : r.numCtrl ≤ 1) :
    GoesOn K [] (K.loopHead need rand (K.resetJobResource r)) := by
  have hb := blank_reset K r
  obtain ⟨c, hc⟩ := loopHead_eq hK
  have hzero : (K.resetJobResource r).numNode < need := hneed
  rw [if_pos hzero] at hc
  rw [hc]
  exact ⟨hb.pairsFrom_eq 0, fun _ => ⟨hb, hn⟩, rfl⟩

theorem goesOn_failed (hl : r.Lone K) (hn : r.numNode < need) :
    GoesOn K r.pairs (K.again need rand (Cluster.failed r)) := by
  have hl' : (Cluster.failed r).Lone K := fun h0 => ⟨⟨(hl h0).1.ids, (hl h0).1.allocs⟩, (hl h0).2⟩
  rw [Cluster.again]
  by_cases ht : 3 < (Cluster.failed r).numTry
  · rw [if_pos ht, releaseFrom]
    by_cases hc : 0 < (Cluster.failed r).numCtrl
    · rw [if_pos hc]
      exact ⟨rfl, hl', rfl⟩
    · rw [if_neg hc]
      have hzero : r.numCtrl = 0 := Nat.eq_zero_of_not_pos hc
      have hnil : r.pairs = [] := JobResource.pairsFrom_of_le (by omega)
      rw [hnil]
      exact goesOn_reset hK (by omega) (by show r.numCtrl ≤ 1; omega)
  · rw [if_neg ht]
    obtain ⟨c, hc⟩ := loopHead_eq hK
    have hn' : (Cluster.failed r).numNode < need := hn
    rw [if_pos hn'] at hc
    rw [hc]
    exact ⟨rfl, hl', rfl⟩

variable {selfId c nl : Text} {n : Nat} {r' : JobResource}

theorem update_ne_none (ht : r.Tidy K) (hclean : r.Clean)
    (hroom : r.ctrlIds2.getD 0 [] = [] ∨ r.ctrlIds2.getD 0 [] = c ∨ 2 ≤ K.numCtrl) :
    K.updateJobResource selfId r n c nl ≠ none := by
  by_cases h0 : r.ctrlIds2.getD 0 [] = []
  · simp [Cluster.updateJobResource, findExist_of_empty h0, hclean h0, ht.ids, ht.allocs, hK]
  · by_cases hj : r.ctrlIds2.getD 0 [] = c
    · simp [Cluster.updateJobResource, findExist_of_first h0 hj, ht.allocs, hK]
    · have htwo : 2 ≤ K.numCtrl := (hroom.resolve_left h0).resolve_left hj
      have hfind := findExist_of_second_empty h0 hj ((ht.single h0).2 1 le_rfl) K.numCtrl
      rw [if_neg (by omega)] at hfind
      have hone : 1 < K.numCtrl := htwo
      simp [Cluster.updateJobResource, hfind, ht.allocs, hone]

theorem first_update (ht : r.Tidy K) (hclean : r.Clean)
    (hu : K.updateJobResource selfId r n c nl = some r') :
    r'.ctrlIds2.getD 0 [] = if r.ctrlIds2.getD 0 [] = [] then c else r.ctrlIds2.getD 0 [] := by
  cases ht.filed hu with
  | new h0 hlen ids1 ids allocs num =>
    rw [ids, hclean h0, getD_appendAt (ht.ids ▸ hK), if_pos rfl, if_pos h0, h0, nil_append]
  | old h0 i hlen hi ids1 ids allocs num => rw [ids, if_neg h0]

/-- **Filing nodes in a clean record** leaves one that stands and counts what `pairs_update`
    says. -/
theorem goesOn_took (ht : r.Tidy K) (hf : r.Filled) (hc : c ≠ [])
    (hclean : r.Clean) (hnl : words ',' nl ≠ []) (hu : K.updateJobResource selfId r n c nl = some r') :
    GoesOn K r'.pairs (K.again need rand r') := by
  have ht' := ht.update hu
  have hne : r'.ctrlIds2.getD 0 [] ≠ [] := by
    rw [first_update hK ht hclean hu]
    split_ifs with h0
    · exact hc
    · exact h0
  obtain ⟨hone, -⟩ := ht'.single hne
  have hstands : r'.Stands := by
    intro j hjlt
    obtain rfl : j = 0 := by omega
    refine ⟨⟨ht'.ids ▸ hK, ht'.allocs ▸ hK⟩, fun he => ?_⟩
    exact ht.filled_update hf hnl hu 0 hne (map_eq_nil_iff.1 he)
  have htry : ¬3 < r'.numTry := by rw [(update_cases hu).1.numTry]; omega
  rw [Cluster.again, if_neg htry]
  obtain ⟨c', hc'⟩ := loopHead_eq hK
  rw [hc']
  split_ifs
  · exact ⟨rfl, fun h => absurd h hne, rfl⟩
  · exact ⟨rfl, hstands, rfl⟩

end

end Private

/-! ## Steps -/

section Steps

variable {C : Conf π ι} {A : Text × Text → Place ι} {s t : World π ι} {p : π} {r : JobResource}
  {o : Out Proc}

/-- When `p` goes on to `q`, the other threads of its job are idle, or hold and have handed over. -/
def Yields (C : Conf π ι) (s : World π ι) (p : π) (q : Proc) : Prop :=
  ∀ p', p' ≠ p → C.owner p' = C.owner p → s.proc p' = .idle ∨ (s.proc p').isHolding = true ∧ q.isRelease = true

theorem Backed.complete (hB : Backed C s) {q : π} (hl : C.Steady s (.complete q r)) :
    r.Stands ∧ r.pairs.Nodup ∧ (∀ x ∈ r.pairs, x ∈ s.held (C.owner q)) ∧
      (∃ p, Bears C s p ∧ C.owner p = C.owner q ∧ (s.proc p).record = r.pairs) ∧
      ∀ p', p' ≠ q → C.owner p' = C.owner q → s.proc p' = .idle ∨ (s.proc p').isHolding = true := by
  obtain ⟨p, hret, ho, hqp, hidle⟩ := hl
  obtain ⟨r₀, hp, hr⟩ := hret.holding
  have hothers : ∀ p', p' ≠ q → C.owner p' = C.owner q → s.proc p' = .idle ∨ (s.proc p').isHolding = true := by
    intro p' hne ho'
    by_cases hpp : p' = p
    · subst hpp
      rw [hp]
      exact .inr rfl
    · exact .inl (hidle p' hpp hne ho')
  have hbears : Bears C s p := by
    refine ⟨by rw [hp]; simp, fun p' hne ho' => ?_⟩
    by_cases hpq : p' = q
    · subst hpq
      rcases hqp with rfl | hi
      · exact absurd rfl hne
      · exact .inl hi
    · exact hothers p' hpq (ho'.trans ho)
  have hback := hB.backed p hbears
  have hnd := hB.nodup p
  have hst := hB.shape p
  rw [hp] at hback hnd hst
  rw [ho] at hback
  rcases hr with rfl | ⟨hpairs, hstands⟩
  · exact ⟨hst, hnd, hback, ⟨p, hbears, ho, by rw [hp]; rfl⟩, hothers⟩
  · exact ⟨hstands, by rw [hpairs]; exact hnd, by rw [hpairs]; exact hback,
      ⟨p, hbears, ho, by rw [hp, hpairs]; rfl⟩, hothers⟩

theorem Backed.single (hB : Backed C s) {l : Label π} (hl : C.Steady s l) : C.Single s l := by
  cases l with
  | start | act => trivial
  | insert k v => exact hl
  | complete q r =>
    obtain ⟨hst, hnd, hback, -, hothers⟩ := hB.complete hl
    refine ⟨⟨hnd, hback, fun p' hne ho x _ hc => ?_⟩, fun j hj => (hst j hj).2⟩
    -- a thread that is idle or holds claims nothing
    rcases hothers p' hne ho with hi | hh
    · rw [hi] at hc
      simp [Proc.claim] at hc
    · cases hq : s.proc p' <;> simp_all [Proc.isHolding, Proc.claim]

theorem beginRelease_record (K : Cluster) (hst : r.Stands) :
    (Proc.beginRelease r).record = r.pairs ∧ Shape K (.beginRelease r) ∧ (Proc.beginRelease r).isRelease = true := by
  rw [Proc.beginRelease, releaseFrom]
  split_ifs with hn
  · exact ⟨rfl, hst, rfl⟩
  · exact ⟨(JobResource.pairsFrom_of_le (by omega)).symm, trivial, rfl⟩

theorem goesOn_begin (C : Conf π ι) (p : π) : GoesOn C.cluster [] (C.cluster.begin (C.selfId p) (C.need p)) := by
  have hb := blank_init C.cluster
  rw [Cluster.begin]
  split_ifs
  · exact ⟨hb.pairsFrom_eq 0, fun _ => ⟨hb, by simp [Cluster.initJobResource]⟩, rfl⟩
  · exact ⟨hb.pairsFrom_eq 0, fun j hj => absurd hj (by simp [Cluster.initJobResource]), rfl⟩

theorem Backed.acting (hB : Backed C s) {rand : Nat}
    (ho : C.cluster.act (C.selfId p) (C.need p) rand s.store (s.proc p) = some o) :
    s.proc p ≠ .idle ∧ Yields C s p (s.proc p) := by
  have hidle : s.proc p ≠ .idle := by
    intro he
    rw [he] at ho
    simp [Cluster.act] at ho
  have hhold : (s.proc p).isHolding = false := by
    cases hq : s.proc p with
    | holding r =>
      rw [hq] at ho
      simp [Cluster.act] at ho
    | _ => rfl
  refine ⟨hidle, fun p' hne ho' => ?_⟩
  by_cases hi : s.proc p' = .idle
  · exact .inl hi
  · rcases hB.compat p' p hne ho' hi hidle with hc | ⟨-, hh⟩
    · exact .inr hc
    · rw [hhold] at hh
      cases hh

section Replace

variable [DecidableEq π] {q : Proc} {st : Zht} {held : ι → Finset (Text × Text)} {gave : ι → List (Text × Text)}

/-- After thread `p` has gone on to `q`, another thread bears only if it did before, for another job. -/
theorem bears_update {p' : π} (hother : Yields C s p q) (hp : p' ≠ p)
    (hb : Bears C ⟨st, update s.proc p q, held, gave⟩ p') : C.owner p' ≠ C.owner p ∧ Bears C s p' := by
  obtain ⟨hne, hothers⟩ := hb
  dsimp only at hne hothers
  rw [update_of_ne hp] at hne
  have ho : C.owner p' ≠ C.owner p := by
    intro ho
    rcases hother p' hp ho with hi | ⟨-, hr⟩
    · exact hne hi
    · have hq := hothers p (Ne.symm hp) ho.symm
      rw [update_self] at hq
      cases q <;> simp_all [Proc.isRelease, Proc.isHolding]
  refine ⟨ho, hne, fun p1 hp1 ho1 => ?_⟩
  have hp₁' : p1 ≠ p := fun he => ho (he ▸ ho1.symm)
  have := hothers p1 hp1 ho1
  rwa [update_of_ne hp₁'] at this

/-- **One thread goes on**; other jobs do not notice. -/
theorem Backed.replace (hB : Backed C s) (hframe : ∀ i, i ≠ C.owner p → held i = s.held i)
    (hback : ∀ x ∈ q.record, x ∈ held (C.owner p)) (hother : Yields C s p q)
    (hshape : Shape C.cluster q) (hnodup : q.record.Nodup) (hstored : ∀ i, ∀ x ∈ held i, st x.1 ≠ none) :
    Backed C ⟨st, update s.proc p q, held, gave⟩ := by
  refine ⟨?_, ?_, ?_, ?_, hstored⟩
  · intro p' hb
    by_cases hp : p' = p
    · subst hp
      simpa using hback
    · obtain ⟨ho, hb'⟩ := bears_update hother hp hb
      dsimp only
      rw [update_of_ne hp, hframe _ ho]
      exact hB.backed p' hb'
  · intro p1 p2 hne ho h1 h2
    dsimp only at h1 h2 ⊢
    by_cases hp1 : p1 = p
    · subst hp1
      rw [update_of_ne hne.symm] at h2 ⊢
      rw [update_self]
      rcases hother p2 hne.symm ho.symm with hi | ⟨hh, hr⟩
      · exact absurd hi h2
      · exact .inr ⟨hr, hh⟩
    · rw [update_of_ne hp1] at h1 ⊢
      by_cases hp2 : p2 = p
      · subst hp2
        rw [update_self]
        rcases hother p1 hp1 ho with hi | ⟨hh, hr⟩
        · exact absurd hi h1
        · exact .inl ⟨hh, hr⟩
      · rw [update_of_ne hp2] at h2 ⊢
        exact hB.compat p1 p2 hne ho h1 h2
  · exact (forall_update_iff _ fun _ (q : Proc) => Shape C.cluster q).2
      ⟨hshape, fun p' _ => hB.shape p'⟩
  · exact (forall_update_iff _ fun _ (q : Proc) => q.record.Nodup).2
      ⟨hnodup, fun p' _ => hB.nodup p'⟩

theorem idle_of_update (hq : q ≠ .idle) {i : ι} (hi : ∀ p', C.owner p' = i → update s.proc p q p' = .idle) :
    i ≠ C.owner p ∧ ∀ p', C.owner p' = i → s.proc p' = .idle := by
  have hne : i ≠ C.owner p := by
    rintro rfl
    have := hi p rfl
    rw [update_self] at this
    exact hq this
  refine ⟨hne, fun p' ho => ?_⟩
  have hp : p' ≠ p := fun he => hne (he ▸ ho.symm)
  have := hi p' ho
  rwa [update_of_ne hp] at this

theorem Exact.replace (hE : Exact C s) (hq : q ≠ .idle) (hframe : ∀ i, i ≠ C.owner p → held i = s.held i)
    (hcount : ∀ x ∈ held (C.owner p), x ∈ q.record) (hother : Yields C s p q) :
    Exact C ⟨st, update s.proc p q, held, gave⟩ := by
  constructor
  · intro p' hb
    by_cases hp : p' = p
    · subst hp
      simpa using hcount
    · obtain ⟨ho, hb'⟩ := bears_update hother hp hb
      dsimp only
      rw [update_of_ne hp, hframe _ ho]
      exact hE.counts p' hb'
  · intro i hi
    obtain ⟨hne, hidle⟩ := idle_of_update hq hi
    dsimp only
    rw [hframe i hne]
    exact hE.clear i hidle

end Replace

variable [DecidableEq ι]

theorem claimAt_releaseFrom (i : Nat) : claimAt r (.ok (releaseFrom r i)) = r.pairsFrom i := by
  rw [releaseFrom]
  split_ifs with hi
  · rfl
  · exact (JobResource.pairsFrom_of_le (by omega)).symm

/-- **One store operation of `release_res`** on a slot that stands: it does not fault, what is
    still to be put back is held, and it is all that is held if it was before. -/
theorem rel_backed (h : Formed C A s) (hno : ¬C.IsCtrl [])
    (hstored : ∀ i, ∀ x ∈ s.held i, s.store x.1 ≠ none) {pc : Rel}
    {o : Out (Except Fault (Option Rel))} (hproc : (s.proc p).claim = r.pairsFrom pc.slot)
    (hin : pc.slot < r.numCtrl) (hfit : RelFit C.cluster r s.store (.ok (some pc)))
    (hslot : pc.slot < r.ctrlIds2.length ∧ pc.slot < r.nodeAlloc.length)
    (hne : r.slotPairs pc.slot ≠ []) (hr : C.cluster.RelStep r s.store pc o) :
    ∃ e, o.next = .ok e ∧ (claimAt r (.ok e)).Nodup ∧ (∀ c ns, o.event ≠ .took c ns) ∧
      (∀ x ∈ claimAt r (.ok e), x ∈ o.event.post (C.owner p) s.held (C.owner p)) ∧
      ((∀ x ∈ s.held (C.owner p), x ∈ r.pairsFrom pc.slot) →
        ∀ x ∈ o.event.post (C.owner p) s.held (C.owner p), x ∈ claimAt r (.ok e)) := by
  have hnd : (r.pairsFrom pc.slot).Nodup := hproc ▸ h.kept.claims.nodup p
  have hheld : ∀ x ∈ r.pairsFrom pc.slot, x ∈ s.held (C.owner p) := fun x hx =>
    h.kept.claims.backed p x (hproc ▸ hx)
  have hnext := (h.rel hno hproc hin hfit (fun _ => hne) hr).2
  cases hr with
  | outside i hi => exact absurd hslot hi
  | null i hi =>
    obtain ⟨x, hx⟩ := exists_mem_of_ne_nil _ hne
    have hx' : x ∈ s.held (C.owner p) := by
      apply hheld
      rw [JobResource.pairsFrom_of_lt hin]
      exact mem_append_left _ hx
    exact absurd ((mem_under.1 hx).1 ▸ hi) (hstored _ x hx')
  | tokens i seen hm => exact absurd rfl hnext.1
  | found | late => exact ⟨_, rfl, hnd, by simp, hheld, id⟩
  | gave i seen new hm hs =>
    have hsplit : r.pairsFrom i = r.slotPairs i ++ r.pairsFrom (i + 1) :=
      JobResource.pairsFrom_of_lt hin
    obtain ⟨-, hrest, hdisj⟩ := nodup_append.1 (hsplit ▸ hnd)
    refine ⟨_, rfl, by rw [claimAt_releaseFrom]; exact hrest, by simp, ?_, ?_⟩
    · intro x hx
      rw [claimAt_releaseFrom] at hx
      refine mem_post_gave.2 ⟨hheld x ?_, fun hg => hdisj x hg.2 x hx rfl⟩
      show x ∈ r.pairsFrom i
      rw [hsplit]
      exact mem_append_right _ hx
    · intro hall x hx
      obtain ⟨hx, hnot⟩ := mem_post_gave.1 hx
      have hmem : x ∈ r.pairsFrom i := hall x hx
      rw [hsplit, mem_append] at hmem
      rw [claimAt_releaseFrom]
      exact hmem.resolve_left fun hg => hnot ⟨rfl, hg⟩

/-- What is true of a thread after a steady step; `counts` is for steps that join. -/
structure After (C : Conf π ι) (s : World π ι) (p : π) (o : Out Proc) : Prop where
  backed : ∀ x ∈ o.next.record, x ∈ o.event.post (C.owner p) s.held (C.owner p)
  counts : C.cluster.Joins s.store (C.need p) (s.proc p) →
    (∀ x ∈ s.held (C.owner p), x ∈ (s.proc p).record) →
    ∀ x ∈ o.event.post (C.owner p) s.held (C.owner p), x ∈ o.next.record
  nodup : o.next.record.Nodup
  shape : Shape C.cluster o.next
  stored : ∀ c ns, o.event = .took c ns → o.store c ≠ none
  phase : (s.proc p).isRelease = true ∧ o.next.isRelease = true ∨
    (s.proc p).isAlloc = true ∧ (s.proc p).isHolding = false ∧ o.next.isAlloc = true

/-- **A steady step of a thread.** -/
theorem Backed.act (hB : Backed C s) (h : Formed C A s) (hno : ¬C.IsCtrl []) (hK : 0 < C.cluster.numCtrl) {rand : Nat}
    (hl : C.cluster.Steadies s.store (C.need p) (s.proc p))
    (ho : C.cluster.act (C.selfId p) (C.need p) rand s.store (s.proc p) = some o) : After C s p o := by
  have hst := Cluster.act_step ho
  have hok := h.kept.claims.ok p
  have hfit := h.fit p
  have hshape := hB.shape p
  have hnd := h.kept.claims.nodup p
  have hheld := h.kept.claims.backed p
  have hgoes : ∀ X st q' (e : Event), GoesOn C.cluster X q' → X.Nodup →
      (∀ c ns, e = .took c ns → st c ≠ none) →
      (∀ x ∈ X, x ∈ e.post (C.owner p) s.held (C.owner p)) →
      (C.cluster.Joins s.store (C.need p) (s.proc p) →
        (∀ x ∈ s.held (C.owner p), x ∈ (s.proc p).record) →
        ∀ x ∈ e.post (C.owner p) s.held (C.owner p), x ∈ X) →
      (s.proc p).isAlloc = true → (s.proc p).isHolding = false → After C s p ⟨st, q', e⟩ := by
    intro X st q' e hg hX hst hback hcount ha hh
    exact ⟨hg.record ▸ hback, hg.record ▸ hcount, hg.record ▸ hX, hg.shape, hst, .inr ⟨ha, hh, hg.alloc⟩⟩
  generalize hq : s.proc p = q at hst hok hfit hshape hl hheld hnd hgoes
  cases hst with
  | missing | refused =>
    exact hgoes _ _ _ _ (goesOn_failed hK hshape hfit.1) hnd (by simp) hheld (fun _ => id) rfl rfl
  | found r | late r =>
    exact hgoes r.pairs _ _ _ ⟨rfl, hshape, rfl⟩ hnd (by simp) hheld (fun _ => id) rfl rfl
  | broken r c seen f hv => exact absurd hv (hfit.2.2.1.doAllocate_ne_fault _ f)
  | spilled r c seen num nl new ha hs hu =>
    obtain ⟨hclean, hroom⟩ := hl hs (by rw [ha]; simp)
    exact absurd hu (update_ne_none hK hok.1 hclean hroom)
  | took r r' c seen num nl new ha hs hu =>
    have hc : c ≠ [] := fun he => hno (he ▸ hok.2)
    obtain ⟨hclean, -⟩ := hl hs (by rw [ha]; simp)
    have hnl := hfit.2.2.1.words_swap_ne_nil (Nat.sub_pos_of_lt hfit.1) ha
    have hpairs := hok.1.pairs_update hu
    have hdistinct : (r.pairs ++ under c (words ',' nl)).Nodup := by
      obtain ⟨names, hn, hnames⟩ := h.kept.books.pools c seen hok.2 hs
      rw [hn.doAllocate] at ha
      split_ifs at ha
      cases ha
      rw [Text.words_joined fun n hm => hn.isWord n (mem_of_mem_take hm)]
      have hd := (h.kept.nodup_took (p := p) hok.2 hs hn hnames
        (min names.length (C.need p - r.numNode))).2
      rw [hq] at hd
      exact hd
    have hsub : r'.pairs.Sublist (r.pairs ++ under c (words ',' nl)) := by
      rw [hpairs]
      split_ifs
      · exact List.Sublist.refl _
      · exact (append_sublist_append_left _).2 (nil_sublist _)
    refine hgoes _ _ _ _ (goesOn_took hK hok.1 hfit.2.1 hc hclean hnl hu)
      (hdistinct.sublist hsub) ?_ (fun x hx => ?_) (fun hj hall x hx => ?_) rfl rfl
    · intro c' ns he
      cases he
      simp
    · rcases mem_append.1 (hsub.subset hx) with hx | hx
      · exact mem_post_took.2 (.inl (hheld x hx))
      · exact mem_post_took.2 (.inr ⟨rfl, hx⟩)
    · rw [hpairs, if_pos (hj hs (by rw [ha]; simp)), mem_append]
      exact (mem_post_took.1 hx).imp (hall x) And.right
  | abandon r pc o hr =>
    obtain ⟨⟨hneed, hf⟩, hrel⟩ := fit_abandon hfit
    have hne : r.slotPairs pc.slot ≠ [] := by
      cases pc with
      | lookup i => exact fun he => hf i hl (map_eq_nil_iff.1 he)
      | swap i seen => exact hfit.2.1
    -- the record counts one slot: its first one is empty and the only one, or filled and alone
    have hone : r.numCtrl ≤ 1 := by
      by_cases h0 : r.ctrlIds2.getD 0 [] = []
      · exact (hshape h0).2
      · exact (hok.1.single h0).1.le
    have hslot : pc.slot < r.ctrlIds2.length ∧ pc.slot < r.nodeAlloc.length := by
      rw [hok.1.ids, hok.1.allocs]
      have := hok.2
      omega
    obtain ⟨e, he, hX, hev, hback, hcount⟩ := rel_backed h hno hB.stored (by rw [hq, Proc.claim])
      hok.2 hrel hslot hne hr
    have hno' : ∀ c ns, o.event = .took c ns → o.store c ≠ none := fun c ns he' =>
      absurd he' (hev c ns)
    rw [he]
    cases e with
    | none => exact hgoes _ _ _ _ (goesOn_reset hK hneed hone) hX hno' hback (fun _ => hcount) rfl rfl
    | some pc' => exact hgoes _ _ _ _ ⟨rfl, hshape, rfl⟩ hX hno' hback (fun _ => hcount) rfl rfl
  | release r pc o hr =>
    have hrel := (fit_release hfit hok).2
    obtain ⟨hslot, hne⟩ := hshape pc.slot hok
    obtain ⟨e, he, hX, hev, hback, hcount⟩ := rel_backed h hno hB.stored (by rw [hq, Proc.claim])
      hok hrel hslot hne hr
    have hno' : ∀ c ns, o.event = .took c ns → o.store c ≠ none := fun c ns he' =>
      absurd he' (hev c ns)
    have hphase : (s.proc p).isRelease = true := by
      rw [hq]
      rfl
    have hcount' : C.cluster.Joins s.store (C.need p) (s.proc p) →
        (∀ x ∈ s.held (C.owner p), x ∈ (s.proc p).record) →
        ∀ x ∈ o.event.post (C.owner p) s.held (C.owner p), x ∈ claimAt r (.ok e) := by
      intro _ hall
      rw [hq] at hall
      exact hcount hall
    rw [he]
    cases e with
    | none => exact ⟨hback, hcount', hX, trivial, hno', .inl ⟨hphase, rfl⟩⟩
    | some pc' => exact ⟨hback, hcount', hX, hshape, hno', .inl ⟨hphase, rfl⟩⟩

theorem After.others (h : After C s p o) (hother : Yields C s p (s.proc p)) : Yields C s p o.next := by
  intro p' hne ho
  refine (hother p' hne ho).imp id fun hh => ⟨hh.1, ?_⟩
  rcases h.phase with ⟨-, hr⟩ | ⟨ha, -, -⟩
  · exact hr
  · cases hq : s.proc p <;> simp_all [Proc.isAlloc, Proc.isRelease]

theorem After.ne_idle (h : After C s p o) : o.next ≠ .idle := by
  intro he
  rcases h.phase with ⟨-, hr⟩ | ⟨-, -, hr⟩
  · rw [he] at hr
    cases hr
  · rw [he] at hr
    cases hr

variable [DecidableEq π]

theorem post_frame (e : Event) {i : ι} {j : ι} (hj : j ≠ i) : e.post i held j = held j := by
  cases e <;> simp [Event.post, update_of_ne hj]

theorem Backed.step (hB : Backed C s) (h : Formed C A s) (hno : ¬C.IsCtrl [])
    (hK : 0 < C.cluster.numCtrl) {l : Label π} (hl : C.Steady s l)
    (hs : (allocator C).step s l = some t) : Backed C t := by
  cases l with
  | start p =>
    obtain ⟨-, rfl⟩ := start_eq hs
    have hbegin := goesOn_begin C p
    refine hB.replace (fun _ _ => rfl) ?_ (fun p' hp ho => .inl (hl p' hp ho)) hbegin.shape ?_
      hB.stored
    · rw [hbegin.record]
      simp
    · rw [hbegin.record]
      exact nodup_nil
  | act p rand =>
    obtain ⟨o, ho, rfl⟩ := map_eq_some_iff.1 hs
    obtain ⟨-, hothers⟩ := hB.acting ho
    have hafter := hB.act h hno hK hl ho
    have hgrow := (h.act_fit hno ho).1.grow
    refine hB.replace (fun i hi => post_frame _ hi) hafter.backed (hafter.others hothers)
      hafter.shape hafter.nodup ?_
    intro i x hx
    cases he : o.event with
    | quiet =>
      rw [he] at hx
      exact hgrow _ (hB.stored i x hx)
    | gave c ns =>
      rw [he, mem_post_gave] at hx
      exact hgrow _ (hB.stored i x hx.1)
    | took c ns =>
      rw [he, mem_post_took] at hx
      rcases hx with hx | ⟨-, hx⟩
      · exact hgrow _ (hB.stored i x hx)
      · exact (mem_under.1 hx).1 ▸ hafter.stored c ns he
  | complete q r =>
    obtain ⟨hst, hnd, hback, -, hothers⟩ := hB.complete hl
    obtain rfl := complete_eq hs
    obtain ⟨hrec, hshape, hrel⟩ := beginRelease_record C.cluster hst
    exact hB.replace (fun _ _ => rfl) (by rw [hrec]; exact hback)
      (fun p' hne ho => (hothers p' hne ho).imp id fun hh => ⟨hh, hrel⟩) hshape
      (by rw [hrec]; exact hnd) hB.stored
  | insert k v =>
    cases hs
    exact ⟨hB.backed, hB.compat, hB.shape, hB.nodup, fun i x hx =>
      insert_ne_none _ (hB.stored i x hx)⟩

theorem Exact.step (hE : Exact C s) (hB : Backed C s) (h : Formed C A s) (hno : ¬C.IsCtrl [])
    (hK : 0 < C.cluster.numCtrl) {l : Label π} (hl : C.Plain s l)
    (hs : (allocator C).step s l = some t) : Exact C t := by
  obtain ⟨hl, hjoin⟩ := hl
  cases l with
  | start p =>
    obtain ⟨hidle, rfl⟩ := start_eq hs
    have hbegin := goesOn_begin C p
    refine hE.replace ?_ (fun _ _ => rfl) ?_ (fun p' hp ho => .inl (hl p' hp ho))
    · intro he
      have := hbegin.alloc
      rw [he] at this
      cases this
    · -- before the start all threads of the job are idle, so it holds nothing
      rw [hE.clear (C.owner p) fun p' ho => by
        by_cases hp : p' = p
        · exact hp ▸ hidle
        · exact hl p' hp ho]
      simp
  | act p rand =>
    obtain ⟨o, ho, rfl⟩ := map_eq_some_iff.1 hs
    obtain ⟨hidle, hothers⟩ := hB.acting ho
    have hafter := hB.act h hno hK hl ho
    have hbears : Bears C s p := ⟨hidle, fun p' hne ho' => (hothers p' hne ho').imp id And.left⟩
    exact hE.replace hafter.ne_idle (fun i hi => post_frame _ hi)
      (hafter.counts hjoin (hE.counts p hbears)) (hafter.others hothers)
  | complete q r =>
    obtain ⟨hst, -, -, ⟨p, hb, ho, hrec⟩, hothers⟩ := hB.complete hl
    obtain rfl := complete_eq hs
    obtain ⟨hbegin, -, hrel⟩ := beginRelease_record C.cluster hst
    refine hE.replace ?_ (fun _ _ => rfl) ?_
      (fun p' hne ho => (hothers p' hne ho).imp id fun hh => ⟨hh, hrel⟩)
    · intro he
      rw [he] at hrel
      cases hrel
    · rw [hbegin, ← hrec, ← ho]
      exact hE.counts p hb
  | insert k v =>
    cases hs
    exact ⟨hE.counts, hE.clear⟩

end Steps

/-! ## A release that is left alone -/

section Alone

variable {C : Conf π ι} {A : Text × Text → Place ι} {s t : World π ι} {p : π}

/-- How many store operations a release has before it at most, when nobody else moves: a slot takes
    a lookup and a swap, and one more swap if the text read is stale. -/
def Proc.left (st : Zht) : Proc → Nat
  | .release r (.lookup i) => 3 * (r.numCtrl - i)
  | .release r (.swap i seen) =>
    3 * (r.numCtrl - i) - (if st (r.ctrlIds2.getD i []) = some seen then 2 else 1)
  | _ => 0

theorem left_lt {K : Cluster} {r : JobResource} {st : Zht} {pc : Rel}
    {o : Out (Except Fault (Option Rel))} {e : Option Rel} (hin : pc.slot < r.numCtrl)
    (hst : ∀ i seen, pc = .swap i seen → st (r.ctrlIds2.getD i []) ≠ none)
    (hr : K.RelStep r st pc o) (he : o.next = .ok e) :
    (Cluster.afterRelease r (.ok e)).left o.store < (Proc.release r pc).left st := by
  cases hr with
  | outside | null | tokens => cases he
  | found i v hv =>
    cases he
    have : i < r.numCtrl := hin
    simp only [Cluster.afterRelease, Proc.left, hv, if_true]
    omega
  | late i seen hne =>
    cases he
    have : i < r.numCtrl := hin
    obtain ⟨v, hv⟩ := ne_none_iff_exists'.1 (hst i seen rfl)
    rw [hv] at hne
    simp only [Cluster.afterRelease, Proc.left, hv, getD_some, if_true, if_neg hne]
    omega
  | gave i seen new hm hs =>
    cases he
    have : i < r.numCtrl := hin
    rw [releaseFrom]
    simp only [Proc.left, hs, if_true]
    split_ifs with hi
    · simp only [Cluster.afterRelease]
      omega
    · simp only [Cluster.afterRelease]
      omega

theorem Formed.left_act (h : Formed C A s) {r : JobResource} {pc : Rel} {rand : Nat} {o : Out Proc}
    (hq : s.proc p = .release r pc) (hshape : Shape C.cluster o.next)
    (ho : C.cluster.act (C.selfId p) (C.need p) rand s.store (s.proc p) = some o) :
    o.next.left o.store < (s.proc p).left s.store := by
  have hst := Cluster.act_step ho
  have hok := h.kept.claims.ok p
  have hfit := h.fit p
  rw [hq] at hst hok hfit ⊢
  cases hst with
  | release _ _ o' hr =>
    cases he : o'.next with
    | error f =>
      rw [he] at hshape
      exact hshape.elim
    | ok e =>
      refine left_lt hok ?_ hr he
      rintro i seen rfl
      exact hfit.2.2

variable [DecidableEq ι]

/-- What stays true while only thread `p` moves, from `s` on: the invariants, the other threads,
    and the other jobs' ledgers. -/
structure Alone (C : Conf π ι) (A₀ : Text × Text → Place ι) (s : World π ι) (p : π) (u : World π ι) : Prop where
  formed : ∃ A, Formed C A u ∧ custody.Reach (fun _ m => m.Inner) A₀ A
  backed : Backed C u
  exact : Exact C u
  release : (u.proc p).isRelease = true
  procs : ∀ q, q ≠ p → u.proc q = s.proc q
  held : ∀ i, i ≠ C.owner p → u.held i = s.held i

variable [DecidableEq π] {A₀ : Text × Text → Place ι} {u : World π ι}

theorem Alone.step (hno : ¬C.IsCtrl []) (hK : 0 < C.cluster.numCtrl)
    (h : Alone C A₀ s p u) (hnot : u.proc p ≠ .released) :
    ∃ t, (allocator C).step u (.act p 0) = some t ∧ Alone C A₀ s p t ∧
      (t.proc p).left t.store < (u.proc p).left u.store := by
  obtain ⟨A, hF, hreach⟩ := h.formed
  obtain ⟨r, pc, hq⟩ : ∃ r pc, u.proc p = .release r pc := by
    have hr := h.release
    cases hq : u.proc p with
    | release r pc => exact ⟨r, pc, rfl⟩
    | released => exact absurd hq hnot
    | _ =>
      rw [hq] at hr
      simp [Proc.isRelease] at hr
  have hact : ∃ o, C.cluster.act (C.selfId p) (C.need p) 0 u.store (u.proc p) = some o := by
    rw [hq]
    exact ⟨_, rfl⟩
  obtain ⟨o, ho⟩ := hact
  have hstep : (allocator C).step u (.act p 0) = some (u.moved C p o) := by
    show Option.map _ _ = _
    rw [ho]
    rfl
  have hplain : C.Plain u (.act p 0) := by
    rw [Conf.Plain, Conf.Steady, hq]
    exact ⟨trivial, trivial⟩
  have hafter := h.backed.act hF hno hK hplain.1 ho
  obtain ⟨A', hF', hA⟩ := hF.step hno (h.backed.single hplain.1) hstep
  refine ⟨_, hstep, ⟨⟨A', hF', hA.reach hreach⟩, h.backed.step hF hno hK hplain.1 hstep,
    h.exact.step h.backed hF hno hK hplain hstep, ?_, ?_, ?_⟩, ?_⟩
  · show (update u.proc p o.next p).isRelease = true
    rw [update_self]
    rcases hafter.phase with ⟨-, hr⟩ | ⟨ha, -, -⟩
    · exact hr
    · rw [hq] at ha
      simp [Proc.isAlloc] at ha
  · intro q hne
    show update u.proc p o.next q = _
    rw [update_of_ne hne, h.procs q hne]
  · intro i hi
    rw [← h.held i hi]
    exact post_frame _ hi
  · show (update u.proc p o.next p).left o.store < _
    rw [update_self]
    exact hF.left_act hq hafter.shape ho

/-- **A release that is left alone finishes**, and then its job holds nothing. -/
theorem Alone.finish (hno : ¬C.IsCtrl []) (hK : 0 < C.cluster.numCtrl) (hbears : Bears C s p) (h : Alone C A₀ s p u) :
    ∃ k t, (allocator C).run u (replicate k (.act p 0)) = some t ∧ Alone C A₀ s p t ∧
      t.proc p = .released ∧ t.held (C.owner p) = ∅ := by
  obtain ⟨k, t, hrun, hI, hD⟩ := Machine.run_of_rank
    (fun v hI hD => hI.step hno hK hD) h
  refine ⟨k, t, hrun, hI, hD, Finset.eq_empty_of_forall_notMem fun x hx => ?_⟩
  have hb : Bears C t p := by
    refine ⟨by rw [hD]; simp, fun q hne ho => ?_⟩
    rw [hI.procs q hne]
    exact hbears.2 q hne ho
  have := hI.exact.counts p hb x hx
  rw [hD] at this
  simp [Proc.record, Proc.claim] at this

end Alone

/-! ## No node is lost -/

section Conservation

variable {C : Conf π ι} {s₀ s : World π ι}

theorem Exact.bearer (hE : Exact C s) (hB : Backed C s) {i : ι} (hi : s.held i ≠ ∅) :
    ∃ p, C.owner p = i ∧ Bears C s p := by
  obtain ⟨p, ho, hp⟩ : ∃ p, C.owner p = i ∧ s.proc p ≠ .idle := by
    by_contra hno
    push Not at hno
    exact hi (hE.clear i hno)
  by_cases hb : Bears C s p
  · exact ⟨p, ho, hb⟩
  · -- then some other thread of the job releases, and that one bears
    simp only [Bears, not_and, not_forall, not_or] at hb
    obtain ⟨q, hqp, hqo, hq, hqh⟩ := hb hp
    refine ⟨q, hqo.trans ho, hq, fun q' hne ho' => ?_⟩
    by_cases hq' : s.proc q' = .idle
    · exact .inl hq'
    · rcases hB.compat q' q hne ho' hq' hq with hc | hc
      · exact .inr hc.1
      · exact absurd hc.2 hqh

theorem Conf.Ready.backed (h0 : C.Ready s) : Backed C s := by
  refine ⟨fun p hb => absurd (h0.idle p) hb.1, fun p q _ _ hp => absurd (h0.idle p) hp,
    fun p => ?_, fun p => ?_, fun i x hx => ?_⟩
  · rw [h0.idle p]
    trivial
  · rw [h0.idle p]
    exact nodup_nil
  · rw [h0.empty i] at hx
    exact absurd hx (Finset.notMem_empty x)

variable [DecidableEq ι] [DecidableEq π]

theorem reach_exact (h0 : C.Ready s₀) (hK : 0 < C.cluster.numCtrl) (h : (allocator C).Reach C.Plain s₀ s) :
    ∃ A₀ A, (∀ x, A₀ x ≠ .out ↔ x ∈ C.listed s₀.store) ∧ Formed C A s ∧ Backed C s ∧ Exact C s ∧
      custody.Reach (fun _ m => m.Inner) A₀ A := by
  obtain ⟨A₀, hF0, hA0⟩ := h0.formed
  have hE0 : Exact C s₀ := ⟨fun p hb => absurd (h0.idle p) hb.1, fun i _ => h0.empty i⟩
  obtain ⟨A, hF, hB, hE, hr⟩ := h.invariant (I := fun u => ∃ A, Formed C A u ∧ Backed C u ∧
      Exact C u ∧ custody.Reach (fun _ m => m.Inner) A₀ A) ⟨A₀, hF0, h0.backed, hE0, .start⟩ (by
    rintro u l v ⟨A, hF, hB, hE, hr⟩ hl hs
    obtain ⟨A', hF', hA⟩ := hF.step h0.named (hB.single hl.1) hs
    exact ⟨A', hF', hB.step hF h0.named hK hl.1 hs, hE.step hB hF h0.named hK hl hs, hA.reach hr⟩)
  exact ⟨A₀, A, hA0, hF, hB, hE, hr⟩

theorem Exact.release_alone (hE : Exact C s) (hB : Backed C s) {A : Text × Text → Place ι} (hF : Formed C A s)
    (hno : ¬C.IsCtrl []) (hK : 0 < C.cluster.numCtrl) {p : π} {r : JobResource}
    (hp : s.proc p = .holding r) (hb : Bears C s p) :
    ∃ k t, (allocator C).run s (.complete p r :: replicate k (.act p 0)) = some t ∧
      t.proc p = .released ∧ ∀ c n, (c, n) ∈ r.pairs → n ∈ namesAt t.store c := by
  have hidle : ∀ q, q ≠ p → C.owner q = C.owner p → s.proc q = .idle := by
    intro q hne ho
    by_contra hq
    rcases hB.compat q p hne ho hq hb.1 with hc | hc
    · have := hc.2
      rw [hp] at this
      simp [Proc.isRelease] at this
    · rcases hb.2 q hne ho with hi | hh
      · exact hq hi
      · cases hq' : s.proc q <;> simp_all [Proc.isHolding, Proc.isRelease]
  have hplain : C.Plain s (.complete p r) :=
    ⟨⟨p, by rw [hp]; exact .inl rfl, rfl, .inl rfl, fun q hne _ ho => hidle q hne ho⟩, trivial⟩
  have hstep : (allocator C).step s (.complete p r) = some { s with proc := update s.proc p (.beginRelease r) } := by
    show (if (s.proc p).canComplete then _ else _) = _
    rw [hp]
    rfl
  obtain ⟨A', hF', hA⟩ := hF.step hno (hB.single hplain.1) hstep
  have hB' := hB.step hF hno hK hplain.1 hstep
  have hE' := hE.step hB hF hno hK hplain hstep
  have halone : Alone C A s p { s with proc := update s.proc p (.beginRelease r) } := by
    refine ⟨⟨A', hF', hA.reach .start⟩, hB', hE', ?_, fun q hne => ?_, fun _ _ => rfl⟩
    · dsimp only
      rw [update_self, Proc.beginRelease, releaseFrom]
      split_ifs <;> rfl
    · dsimp only
      rw [update_of_ne hne]
  obtain ⟨k, t, hrun, hI, hrel, hempty⟩ := halone.finish hno hK hb
  refine ⟨k, t, ?_, hrel, fun c n hx => ?_⟩
  · rw [Machine.run, hstep]
    exact hrun
  · -- the node is still known; its job holds nothing any more, and no other job has got it
    obtain ⟨B, hFB, hreach⟩ := hI.formed
    have hheld : (c, n) ∈ s.held (C.owner p) := hB.backed p hb _ (by rw [hp]; exact hx)
    have hknown : B (c, n) ≠ .out := by
      rw [ne_eq, Custody.known_iff hreach]
      exact hF.kept.books.tracks.known_of_held hheld
    rcases hFB.kept.books.tracks.free_or_held hknown with hf | ⟨i, hi⟩
    · exact hf.2
    · have hi' : (c, n) ∈ t.held i := hi
      by_cases hio : i = C.owner p
      · rw [hio, hempty] at hi'
        exact absurd hi' (Finset.notMem_empty _)
      · rw [hI.held i hio] at hi'
        exact absurd (hF.kept.books.tracks.exclusive hi' hheld) hio

/-- **No node is lost.**  In every run whose steps are all plain, in every state reached:

    1. the nodes a job holds are exactly those its thread's record counts, each under the
       controller it was taken from;
    2. a job none of whose threads has started holds nothing;
    3. no thread has left its arrays;
    4. every node that a pool listed at the beginning is in that pool or in some thread's record;
    5. a thread that holds a record and calls `release_res` on it finishes when it is left alone,
       and every node the record counts is then in the pool it came from. -/
theorem record_exact (h0 : C.Ready s₀) (hK : 0 < C.cluster.numCtrl)
    (h : (allocator C).Reach C.Plain s₀ s) :
    (∀ p, Bears C s p → ∀ x, x ∈ s.held (C.owner p) ↔ x ∈ (s.proc p).record) ∧
    (∀ i, (∀ p, C.owner p = i → s.proc p = .idle) → s.held i = ∅) ∧
    (∀ p f, s.proc p ≠ .fault f) ∧
    (∀ c n, C.IsCtrl c → n ∈ namesAt s₀.store c →
      n ∈ namesAt s.store c ∨ ∃ p, (c, n) ∈ (s.proc p).record) ∧
    ∀ p r, s.proc p = .holding r → Bears C s p →
      ∃ k t, (allocator C).run s (.complete p r :: replicate k (.act p 0)) = some t ∧
        t.proc p = .released ∧ ∀ c n, (c, n) ∈ r.pairs → n ∈ namesAt t.store c := by
  obtain ⟨A₀, A, hA₀, hF, hB, hE, hr⟩ := reach_exact h0 hK h
  refine ⟨fun p hb x => ⟨hE.counts p hb x, hB.backed p hb x⟩, hE.clear, fun p f hf => ?_, fun c n hc hn => ?_, fun p r hp hb => ?_⟩
  · have := hB.shape p
    rw [hf] at this
    exact this
  · have hknown : A (c, n) ≠ .out := by
      rw [ne_eq, Custody.known_iff hr]
      exact (hA₀ (c, n)).2 ⟨hc, hn⟩
    rcases hF.kept.books.tracks.free_or_held hknown with hf | ⟨i, hi⟩
    · exact .inl hf.2
    · have hi' : (c, n) ∈ s.held i := hi
      obtain ⟨p, rfl, hb⟩ := hE.bearer hB (Finset.ne_empty_of_mem hi')
      exact .inr ⟨p, hE.counts p hb _ hi'⟩
  · exact hE.release_alone hB hF h0.named hK hp hb

instance (r : JobResource) : Decidable r.Stands :=
  inferInstanceAs (Decidable (∀ j < r.numCtrl, _))

instance (r : JobResource) : Decidable r.Clean := inferInstanceAs (Decidable (_ → _))

instance (K : Cluster) (st : Zht) (need : Nat) : ∀ q, Decidable (K.Steadies st need q)
  | .take r _ _ => inferInstanceAs (Decidable (_ → _ → r.Clean ∧ _))
  | .abandon _ (.lookup _) => inferInstanceAs (Decidable (_ ≠ _))
  | .abandon _ (.swap _ _) | .idle | .look _ _ | .holding _ | .release _ _ | .released | .fault _ =>
    inferInstanceAs (Decidable True)

instance (K : Cluster) (st : Zht) (need : Nat) : ∀ q, Decidable (K.Joins st need q)
  | .take _ _ _ => inferInstanceAs (Decidable (_ → _ → _ ∨ _))
  | .abandon _ _ | .idle | .look _ _ | .holding _ | .release _ _ | .released | .fault _ =>
    inferInstanceAs (Decidable True)

instance (r : JobResource) : ∀ q : Proc, Decidable (q.Returned r)
  | .holding _ => inferInstanceAs (Decidable (_ ∨ _ ∧ r.Stands))
  | .take _ _ _ | .abandon _ _ | .idle | .look _ _ | .release _ _ | .released | .fault _ =>
    inferInstanceAs (Decidable False)

instance [Fintype π] (C : Conf π ι) (s : World π ι) : ∀ l, Decidable (C.Steady s l)
  | .start p => inferInstanceAs (Decidable (∀ q, q ≠ p → C.owner q = C.owner p → _))
  | .act p _ => inferInstanceAs (Decidable (C.cluster.Steadies s.store (C.need p) (s.proc p)))
  | .complete _ r => inferInstanceAs (Decidable (∃ p, (s.proc p).Returned r ∧ _))
  | .insert _ _ => inferInstanceAs (Decidable (_ ∧ _))

instance [Fintype π] (C : Conf π ι) (s : World π ι) : ∀ l, Decidable (C.Plain s l)
  | .start p => inferInstanceAs (Decidable (C.Steady s (.start p) ∧ True))
  | .act p rand => inferInstanceAs (Decidable
      (C.Steady s (.act p rand) ∧ C.cluster.Joins s.store (C.need p) (s.proc p)))
  | .complete q r => inferInstanceAs (Decidable (C.Steady s (.complete q r) ∧ True))
  | .insert k v => inferInstanceAs (Decidable (C.Steady s (.insert k v) ∧ True))

theorem pairStart_ready : pairConf.Ready pairStart := by
  refine ⟨fun _ => rfl, fun _ => rfl, by decide, rfl, ?_⟩
  rintro c v (hc | ⟨p, rfl⟩) hv
  · obtain rfl | rfl : c = "a".toList ∨ c = "b".toList := by simpa [pairConf] using hc
    · cases hv
      exact ⟨["n1".toList, "n2".toList], by decide, by decide, by decide, by decide⟩
    · cases hv
      exact ⟨["m1".toList], by decide, by decide, by decide, by decide⟩
  · cases hv
    exact ⟨["n1".toList, "n2".toList], by decide, by decide, by decide, by decide⟩

def pairRecord : JobResource :=
  ⟨0, 1, "n1".toList, "a,".toList, 1, ["a".toList, []], ["n1,".toList, []], true⟩

/-- Two jobs race for the pool of `a`; the first one's record counts its node and gives it back. -/
theorem record_exact_pair :
    ∃ s, (allocator pairConf).Reach pairConf.Plain pairStart s ∧ s.proc 0 = .holding pairRecord ∧
      s.held 0 = {("a".toList, "n1".toList)} ∧
      ∃ k t, (allocator pairConf).run s
          (.complete 0 pairRecord :: replicate k (.act 0 0)) = some t ∧
        t.proc 0 = .released ∧ ∀ c n, (c, n) ∈ pairRecord.pairs → n ∈ namesAt t.store c := by
  have hr : (allocator pairConf).Reach pairConf.Plain pairStart _ :=
    .of_run [.start 0, .start 1, .act 0 0, .act 1 0, .act 0 0, .act 1 0, .act 1 1]
      .start (by decide) rfl
  exact ⟨_, hr, by decide, by decide, (record_exact pairStart_ready (by decide) hr).2.2.2.2 0 pairRecord (by decide)
      ⟨by decide, by decide⟩⟩

def splitConf : Conf (Fin 1) (Fin 1) where
  cluster := ⟨1, ["a".toList, "b".toList]⟩
  selfId _ := "a".toList
  need _ := 2
  owner p := p

def splitStart : World (Fin 1) (Fin 1) where
  store := Store.insert (Store.insert (fun _ => none) "a".toList "1,n1".toList)
    "b".toList "1,m1".toList
  proc _ := .idle
  held _ := ∅
  gave _ := []

/-- **The second controller's node is lost.**  `allocate_res` takes `n1` of `a` and `m1` of `b`; the
    record counts only `n1`, so after `release_res` the job still has `m1` and no pool lists it. -/
theorem record_loses_node :
    ∃ s r, (allocator splitConf).run splitStart
        [.start 0, .act 0 0, .act 0 1, .act 0 0, .act 0 0] = some s ∧ s.proc 0 = .holding r ∧
      s.held 0 = {("a".toList, "n1".toList), ("b".toList, "m1".toList)} ∧
      r.pairs = [("a".toList, "n1".toList)] ∧
      ∃ t, (allocator splitConf).run s [.complete 0 r, .act 0 0, .act 0 0] = some t ∧
        t.proc 0 = .released ∧ t.held 0 = {("b".toList, "m1".toList)} ∧
        namesAt t.store "b".toList = [] := by
  refine ⟨_, ⟨0, 2, "n1m1".toList, "a,".toList, 1, ["a".toList, []], ["n1,".toList, "m1,".toList],
    true⟩, rfl, ?_, ?_, ?_, _, rfl, ?_, ?_, ?_⟩ <;> decide

end Conservation

end Slurmpp.Controller
