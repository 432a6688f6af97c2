/-
  Pool values stay well formed, under registrations, allocations and single releases.

  Every reader trusts the leading count of a pool text.  `PoolValue` is what it relies on: the count, a comma, and
  that many distinct, non-empty, comma-free names, at most `part_size`.  Distinctness and the bound follow from
  custody: all nodes known under one controller are at most `part_size` (`Capped`).  What has to be carried along
  besides (`Formed`) is the exact spelling of the texts, and that every text a thread has read, HOWEVER LONG AGO, was
  a pool value: it is parsed before the swap tells that it is stale.
-/
import Slurmpp.Controller.Ledger
import Slurmpp.Controller.Regist

namespace Slurmpp.Controller

open List Option Function

open Text (words joined IsWord)
open Custody (Tracks Place Move custody put)

/-- **A well-formed pool value.** -/
def PoolValue (K : Cluster) (v : Text) : Prop :=
  ∃ names : List Text, v = poolText names ∧ (∀ n ∈ names, IsWord ',' n) ∧ names.Nodup ∧ names.length ≤ K.partSize

variable {K : Cluster} {v c : Text}

theorem PoolValue.counted (h : PoolValue K v) :
    ∃ names, Counted v names ∧ names.Nodup ∧ names.length ≤ K.partSize := by
  obtain ⟨names, rfl, hw, hnd, hlen⟩ := h
  exact ⟨names, counted_poolText hw, hnd, hlen⟩

theorem PoolValue.length_words_le (h : PoolValue K v) : (words ',' v).length ≤ K.partSize + 1 := by
  obtain ⟨names, hn, -, hlen⟩ := h.counted
  rw [hn, length_cons]
  omega

theorem PoolValue.doAllocate_ne_fault (h : PoolValue K v) (more : Nat)
    (f : Fault) : K.doAllocate v more ≠ .fault f := by
  obtain ⟨names, hn, -, hlen⟩ := h.counted
  have hsmall : ¬K.partSize < names.length := by omega
  rw [hn.doAllocate, if_neg hsmall]
  split_ifs <;> simp

theorem PoolValue.words_swap_ne_nil {nl new : Text} {more num : Nat}
    (h : PoolValue K v) (hmore : 0 < more) (ha : K.doAllocate v more = .swap num nl new) : words ',' nl ≠ [] := by
  obtain ⟨names, hn, -, -⟩ := h.counted
  rw [hn.doAllocate] at ha
  split_ifs at ha with hlen hnil
  cases ha
  rw [Text.words_joined fun n hm => hn.isWord n (mem_of_mem_take hm)]
  have hpos : 0 < names.length := length_pos_of_ne_nil hnil
  intro he
  have hzero := congrArg length he
  rw [length_take, length_nil] at hzero
  omega

variable {π ι : Type*}

/-! ## The invariant -/

/-- Under each controller at most `part_size` nodes are known. -/
def Capped (K : Cluster) (A : Text × Text → Place ι) : Prop :=
  ∀ c, ∃ L : List Text, L.length ≤ K.partSize ∧ ∀ n, A (c, n) ≠ .out → n ∈ L

theorem Capped.length_le {A : Text × Text → Place ι} (h : Capped K A)
    {names : List Text} (hnd : names.Nodup) (hk : ∀ n ∈ names, A (c, n) ≠ .out) : names.length ≤ K.partSize := by
  obtain ⟨L, hL, hmem⟩ := h c
  exact le_trans (hnd.subperm fun n hn => hmem n (hk n hn)).length_le hL

/-- What a thread has read or is about to give back is in form; `need` is what its job needs. -/
def Fit (K : Cluster) (st : Zht) (need : Nat) : Proc → Prop
  | .look r _ => r.numNode < need ∧ r.Filled
  | .take r c seen => r.numNode < need ∧ r.Filled ∧ PoolValue K seen ∧ st c ≠ none
  | .abandon r (.lookup _) => 0 < need ∧ r.Filled
  | .abandon r (.swap i seen) =>
    (0 < need ∧ r.Filled) ∧ r.slotPairs i ≠ [] ∧ PoolValue K seen ∧ st (r.ctrlIds2.getD i []) ≠ none
  | .holding r => r.Filled
  | .release r (.lookup _) => ∀ j < r.numCtrl, r.slotPairs j ≠ []
  | .release r (.swap i seen) =>
    (∀ j < r.numCtrl, r.slotPairs j ≠ []) ∧ PoolValue K seen ∧ st (r.ctrlIds2.getD i []) ≠ none
  | .fault f => f ≠ .tokens ∧ f ≠ .index
  | .idle | .released => True

/-- **The invariant**: custody, its bound, the spelling of the pools, and threads in form. -/
structure Formed (C : Conf π ι) (A : Text × Text → Place ι) (s : World π ι) : Prop where
  kept : Kept C A s
  cap : Capped C.cluster A
  text : ∀ c v, C.IsCtrl c → s.store c = some v → v = poolText (namesOf v)
  blank : s.store [] = none
  fit : ∀ p, Fit C.cluster s.store (C.need p) (s.proc p)

theorem Formed.poolValue {C : Conf π ι} {A : Text × Text → Place ι} {s : World π ι}
    (h : Formed C A s) (hc : C.IsCtrl c) (hv : s.store c = some v) : PoolValue C.cluster v := by
  obtain ⟨names, hn, hnd⟩ := h.kept.books.pools c v hc hv
  have htext := h.text c v hc hv
  rw [hn.namesOf_eq] at htext
  refine ⟨names, htext, hn.isWord, hnd, h.cap.length_le (c := c) hnd fun n hm => ?_⟩
  exact h.kept.books.tracks.known_of_free ((mem_listed_of_some hc hv hn n).2 hm)

theorem Fit.mono {st st' : Zht} (hst : ∀ k, st k ≠ none → st' k ≠ none)
    {need : Nat} {q : Proc} (h : Fit K st need q) : Fit K st' need q := by
  cases q with
  | take r c seen => exact ⟨h.1, h.2.1, h.2.2.1, hst _ h.2.2.2⟩
  | abandon r pc =>
    cases pc with
    | lookup i => exact h
    | swap i seen => exact ⟨h.1, h.2.1, h.2.2.1, hst _ h.2.2.2⟩
  | release r pc =>
    cases pc with
    | lookup i => exact h
    | swap i seen => exact ⟨h.1, h.2.1, hst _ h.2.2⟩
  | idle | look | holding | released | fault => exact h

theorem insert_ne_none {st : Zht} {k : Text} : ∀ l, st l ≠ none → st.insert k v l ≠ none := by
  intro l hl
  by_cases hlk : l = k
  · subst hlk
    simp
  · rwa [Store.insert_of_ne hlk]

/-! ## Private code -/

section Private

variable {K : Cluster} {st : Zht} {need rand : Nat} {r : JobResource}

theorem fit_loopHead (hf : r.Filled) : Fit K st need (K.loopHead need rand r) := by
  rw [Cluster.loopHead]
  cases K.memList[rand % K.numCtrl]? with
  | none => exact ⟨by simp, by simp⟩
  | some c =>
    split_ifs with hn
    · exact ⟨hn, hf⟩
    · exact hf

theorem fit_loopHead_reset : Fit K st need (K.loopHead need rand (K.resetJobResource r)) :=
  fit_loopHead (blank_reset K r).filled

theorem fit_again (hneed : 0 < need) (hf : r.Filled) : Fit K st need (K.again need rand r) := by
  rw [Cluster.again, releaseFrom]
  split_ifs with ht hn
  · exact ⟨hneed, hf⟩
  · exact fit_loopHead_reset
  · exact fit_loopHead hf

theorem fit_begin (selfId : Text) : Fit K st need (K.begin selfId need) := by
  have hf := (blank_init K).filled
  rw [Cluster.begin]
  split_ifs with hn
  · exact ⟨hn, hf⟩
  · exact hf

theorem fit_beginRelease (h : ∀ j < r.numCtrl, r.slotPairs j ≠ []) : Fit K st need (.beginRelease r) := by
  rw [Proc.beginRelease, releaseFrom]
  split_ifs with hn
  · exact h
  · trivial

end Private

/-! ## Steps -/

section Steps

variable {C : Conf π ι} {A : Text × Text → Place ι} {s : World π ι} {p : π}

/-- What a step must leave true of the store. -/
structure Spelled (C : Conf π ι) (st st' : Zht) : Prop where
  text : ∀ c v, C.IsCtrl c → st' c = some v → v = poolText (namesOf v)
  blank : st' [] = none
  grow : ∀ k, st k ≠ none → st' k ≠ none

theorem Formed.spelled (h : Formed C A s) : Spelled C s.store s.store :=
  ⟨h.text, h.blank, fun _ hk => hk⟩

theorem Formed.spelled_insert (h : Formed C A s) (hno : ¬C.IsCtrl []) {c : Text}
    (hc : C.IsCtrl c) {names : List Text} (hw : ∀ n ∈ names, IsWord ',' n) :
    Spelled C s.store (s.store.insert c (poolText names)) where
  text c' v hc' hv := by
    by_cases hcc : c' = c
    · subst hcc
      rw [Store.insert_self, some.injEq] at hv
      rw [← hv, (counted_poolText hw).namesOf_eq]
    · rw [Store.insert_of_ne hcc] at hv
      exact h.text c' v hc' hv
  blank := by
    have hne : ([] : Text) ≠ c := fun he => hno (he ▸ hc)
    rw [Store.insert_of_ne hne, h.blank]
  grow := insert_ne_none

/-- Where `release_res` stands, it has read a pool value and has nodes to give. -/
def RelFit (K : Cluster) (r : JobResource) (st : Zht) : Except Fault (Option Rel) → Prop
  | .ok (some (.swap i seen)) =>
    r.slotPairs i ≠ [] ∧ PoolValue K seen ∧ st (r.ctrlIds2.getD i []) ≠ none
  | .error f => f ≠ .tokens ∧ f ≠ .index
  | _ => True

theorem fit_abandon {K : Cluster} {st : Zht} {r : JobResource} {pc : Rel} {n : Nat}
    (h : Fit K st n (.abandon r pc)) : (0 < n ∧ r.Filled) ∧ RelFit K r st (.ok (some pc)) := by
  cases pc with
  | lookup i => exact ⟨h, trivial⟩
  | swap i seen => exact h

theorem fit_release {K : Cluster} {st : Zht} {r : JobResource} {pc : Rel} {n : Nat}
    (h : Fit K st n (.release r pc)) (hin : pc.slot < r.numCtrl) :
    (∀ j < r.numCtrl, r.slotPairs j ≠ []) ∧ RelFit K r st (.ok (some pc)) := by
  cases pc with
  | lookup i => exact ⟨h, trivial⟩
  | swap i seen => exact ⟨h.1, h.1 i hin, h.2⟩

theorem Formed.rel (h : Formed C A s) (hno : ¬C.IsCtrl []) {r : JobResource} {pc : Rel}
    {o : Out (Except Fault (Option Rel))} (hproc : (s.proc p).claim = r.pairsFrom pc.slot)
    (hin : pc.slot < r.numCtrl) (hfit : RelFit C.cluster r s.store (.ok (some pc)))
    (hfill : r.ctrlIds2.getD pc.slot [] ≠ [] → r.slotPairs pc.slot ≠ []) (hr : C.cluster.RelStep r s.store pc o) :
    Spelled C s.store o.store ∧ RelFit C.cluster r o.store o.next := by
  have hclaim : (s.proc p).claim = r.slotPairs pc.slot ++ r.pairsFrom (pc.slot + 1) := by
    rw [hproc, JobResource.pairsFrom_of_lt hin]
  have hheld : ∀ x ∈ r.slotPairs pc.slot, x ∈ s.held (C.owner p) := fun x hx =>
    h.kept.claims.backed p x (hclaim ▸ mem_append_left _ hx)
  -- a slot with nodes names a controller, since held nodes have a home
  have hctrl : r.slotPairs pc.slot ≠ [] → C.IsCtrl (r.ctrlIds2.getD pc.slot []) := by
    intro hne
    obtain ⟨x, hx⟩ := exists_mem_of_ne_nil _ hne
    exact (mem_under.1 hx).1 ▸ h.kept.books.home _ x (hheld x hx)
  have hread : ∀ v, r.slotPairs pc.slot ≠ [] → s.store (r.ctrlIds2.getD pc.slot []) = some v →
      PoolValue C.cluster v := fun v hne hv => h.poolValue (hctrl hne) hv
  cases hr with
  | outside | null => exact ⟨h.spelled, by simp, by simp⟩
  | found i v hv =>
    have hname : r.ctrlIds2.getD i [] ≠ [] := by
      intro he
      rw [he, h.blank] at hv
      cases hv
    exact ⟨h.spelled, hfill hname, hread v (hfill hname) hv, ne_none_iff_exists'.2 ⟨v, hv⟩⟩
  | late i seen =>
    obtain ⟨hne, -, hsome⟩ := hfit
    obtain ⟨v, hv⟩ := ne_none_iff_exists'.1 hsome
    rw [hv, getD_some]
    exact ⟨h.spelled, hne, hread v hne hv, hsome⟩
  | tokens i seen hm =>
    obtain ⟨-, hseen, -⟩ := hfit
    obtain ⟨names, hn, -, hlen⟩ := hseen.counted
    -- the nodes to be given back are distinct and known, so there are not too many
    have hslot : (r.slotPairs i).Nodup :=
      (nodup_append.1 (hclaim ▸ h.kept.claims.nodup p)).1
    have hadd : (words ',' (r.nodeAlloc.getD i [])).length ≤ C.cluster.partSize :=
      h.cap.length_le (nodup_under.1 hslot) fun n hm' =>
        h.kept.books.tracks.known_of_held (hheld _ (mem_under.2 ⟨rfl, hm'⟩))
    rw [hn.mergeResStr, if_pos ⟨hlen, by omega⟩] at hm
    cases hm
  | gave i seen new hm hs =>
    obtain ⟨hne, hseen, -⟩ := hfit
    obtain ⟨names, hn, -, hlen⟩ := hseen.counted
    rw [hn.mergeResStr] at hm
    split_ifs at hm
    cases hm
    have hadd : words ',' (r.nodeAlloc.getD i []) ≠ [] := fun he => hne (by
      rw [JobResource.slotPairs, he]
      rfl)
    rw [mergeText_eq_poolText hadd]
    refine ⟨h.spelled_insert hno (hctrl hne) ?_, ?_⟩
    · intro n hmem
      rcases mem_append.1 hmem with hmem | hmem
      · exact hn.isWord n hmem
      · exact Text.isWord_of_mem_words hmem
    · rw [releaseFrom]
      split_ifs <;> trivial

theorem Formed.act_fit (h : Formed C A s) (hno : ¬C.IsCtrl []) {rand : Nat} {o : Out Proc}
    (ho : C.cluster.act (C.selfId p) (C.need p) rand s.store (s.proc p) = some o) :
    Spelled C s.store o.store ∧ Fit C.cluster o.store (C.need p) o.next := by
  have hst := Cluster.act_step ho
  have hok := h.kept.claims.ok p
  have hfit := h.fit p
  generalize hq : s.proc p = q at hst hok hfit
  cases hst with
  | missing r c hv => exact ⟨h.spelled, fit_again (Nat.zero_lt_of_lt hfit.1) hfit.2⟩
  | refused r c seen hv => exact ⟨h.spelled, fit_again (Nat.zero_lt_of_lt hfit.1) hfit.2.1⟩
  | found r c v hv =>
    exact ⟨h.spelled, hfit.1, hfit.2, h.poolValue hok.2 hv, ne_none_iff_exists'.2 ⟨v, hv⟩⟩
  | late r c seen =>
    obtain ⟨hneed, hf, -, hsome⟩ := hfit
    obtain ⟨v, hv⟩ := ne_none_iff_exists'.1 hsome
    rw [hv, getD_some]
    exact ⟨h.spelled, hneed, hf, h.poolValue hok.2 hv, hsome⟩
  | broken r c seen f hv => exact absurd hv (hfit.2.2.1.doAllocate_ne_fault _ f)
  | spilled r c seen num nl new ha hs hu =>
    obtain ⟨names, hn, -, -⟩ := hfit.2.2.1.counted
    rw [hn.doAllocate] at ha
    split_ifs at ha
    cases ha
    refine ⟨h.spelled_insert hno hok.2 fun n hm => hn.isWord n (mem_of_mem_drop hm), ?_⟩
    exact ⟨by simp, by simp⟩
  | took r r' c seen num nl new ha hs hu =>
    obtain ⟨hneed, hf, hseen, -⟩ := hfit
    have hnl := hseen.words_swap_ne_nil (by omega) ha
    obtain ⟨names, hn, -, -⟩ := hseen.counted
    rw [hn.doAllocate] at ha
    split_ifs at ha
    cases ha
    refine ⟨h.spelled_insert hno hok.2 fun n hm => hn.isWord n (mem_of_mem_drop hm), ?_⟩
    exact fit_again (Nat.zero_lt_of_lt hneed) (hok.1.filled_update hf hnl hu)
  | abandon r pc o hr =>
    obtain ⟨hf, hrel⟩ := fit_abandon hfit
    obtain ⟨hsp, hnext⟩ := h.rel hno (by rw [hq, Proc.claim]) hok.2 hrel
      (fun hne he => hf.2 _ hne (map_eq_nil_iff.1 he)) hr
    refine ⟨hsp, ?_⟩
    generalize o.next = next at hnext ⊢
    rcases next with f | _ | i | ⟨i, seen⟩
    · exact hnext
    · exact fit_loopHead_reset
    · exact hf
    · exact ⟨hf, hnext⟩
  | release r pc o hr =>
    obtain ⟨hslots, hrel⟩ := fit_release hfit hok
    obtain ⟨hsp, hnext⟩ := h.rel hno (by rw [hq, Proc.claim]) hok hrel
      (fun _ => hslots _ hok) hr
    refine ⟨hsp, ?_⟩
    generalize o.next = next at hnext ⊢
    rcases next with f | _ | i | ⟨i, seen⟩
    · exact hnext
    · trivial
    · exact hslots
    · exact ⟨hslots, hnext.2⟩

/-- Releases are sound and give at least one node per slot; other code writes neither under a
    controller's key nor under the empty one. -/
def Conf.Single (C : Conf π ι) (s : World π ι) : Label π → Prop
  | .complete p r => C.Sound s (.complete p r) ∧ ∀ j < r.numCtrl, r.slotPairs j ≠ []
  | .insert k _ => ¬C.IsCtrl k ∧ k ≠ []
  | _ => True

theorem Conf.Single.sound {l : Label π} (h : C.Single s l) : C.Sound s l := by
  cases l with
  | start | act => trivial
  | complete | insert => exact h.1

variable [DecidableEq π] [DecidableEq ι] {A' : Text × Text → Place ι} {t : World π ι}

theorem Capped.refined {K : Cluster} (h : Capped K A) (hA : Refined A A') : Capped K A' := by
  intro c
  obtain ⟨L, hL, hmem⟩ := h c
  exact ⟨L, hL, fun n hn => hmem n fun hout => hn ((hA.out_iff _).2 hout)⟩

theorem Formed.step (h : Formed C A s) (hno : ¬C.IsCtrl []) {l : Label π} (hl : C.Single s l)
    (hs : (allocator C).step s l = some t) : ∃ A', Formed C A' t ∧ Refined A A' := by
  obtain ⟨A', hK, hA⟩ := h.kept.step hl.sound hs
  -- only thread `p` moves; the others' texts stay as they are while keys never vanish
  have hfit : ∀ p q st, (∀ k, s.store k ≠ none → st k ≠ none) → Fit C.cluster st (C.need p) q →
      ∀ p', Fit C.cluster st (C.need p') (update s.proc p q p') := fun p q st hgrow hq =>
    (forall_update_iff _ fun p' (q : Proc) => Fit C.cluster st (C.need p') q).2
      ⟨hq, fun p' _ => (h.fit p').mono hgrow⟩
  have hshape : Spelled C s.store t.store ∧ ∀ p, Fit C.cluster t.store (C.need p) (t.proc p) := by
    cases l with
    | start p =>
      obtain ⟨-, rfl⟩ := start_eq hs
      exact ⟨h.spelled, hfit p _ s.store h.spelled.grow (fit_begin _)⟩
    | act p rand =>
      obtain ⟨o, ho, rfl⟩ := map_eq_some_iff.1 hs
      obtain ⟨hsp, hq⟩ := h.act_fit hno ho
      exact ⟨hsp, hfit p _ o.store hsp.grow hq⟩
    | complete p r =>
      obtain rfl := complete_eq hs
      exact ⟨h.spelled, hfit p _ s.store h.spelled.grow (fit_beginRelease hl.2)⟩
    | insert k v =>
      cases hs
      refine ⟨⟨fun c w hc hw => ?_, ?_, insert_ne_none⟩, fun p => (h.fit p).mono insert_ne_none⟩
      · have hck : c ≠ k := fun he => hl.1 (he ▸ hc)
        dsimp only at hw
        rw [Store.insert_of_ne hck] at hw
        exact h.text c w hc hw
      · dsimp only
        rw [Store.insert_of_ne (Ne.symm hl.2), h.blank]
  exact ⟨A', ⟨hK, h.cap.refined hA, hshape.1.text, hshape.1.blank, hshape.2⟩, hA⟩

/-- Where a run of the allocator begins: no thread has started, no job holds anything, every
    controller has a name, and what stands under their keys are pool values. -/
structure Conf.Ready (C : Conf π ι) (s : World π ι) : Prop where
  idle : ∀ p, s.proc p = .idle
  empty : ∀ i, s.held i = ∅
  named : ¬C.IsCtrl []
  blank : s.store [] = none
  pools : ∀ c v, C.IsCtrl c → s.store c = some v → PoolValue C.cluster v

omit [DecidableEq π] [DecidableEq ι] in
theorem Conf.Ready.formed (h : C.Ready s) : ∃ A, Formed C A s ∧ ∀ x, A x ≠ .out ↔ x ∈ C.listed s.store := by
  obtain ⟨A, hK, hA⟩ := kept_of_idle h.idle h.empty fun c v hc hv => by
    obtain ⟨names, hn, hnd, -⟩ := (h.pools c v hc hv).counted
    exact ⟨names, hn, hnd⟩
  refine ⟨A, ⟨hK, ?_, ?_, h.blank, fun p => by rw [h.idle p]; trivial⟩, hA⟩
  · -- what is known at the beginning is what the pools list
    intro c
    cases hv : s.store c with
    | none =>
      exact ⟨[], by simp, fun n hn => absurd ((hA _).1 hn) (not_listed_of_none hv n)⟩
    | some v =>
      by_cases hc : C.IsCtrl c
      · obtain ⟨names, hn, -, hlen⟩ := (h.pools c v hc hv).counted
        refine ⟨names, hlen, fun n hk => ?_⟩
        exact (mem_listed_of_some hc hv hn n).1 ((hA _).1 hk)
      · exact ⟨[], by simp, fun n hk => absurd ((hA _).1 hk).1 hc⟩
  · intro c v hc hv
    obtain ⟨names, rfl, hw, -, -⟩ := h.pools c v hc hv
    rw [(counted_poolText hw).namesOf_eq]

end Steps

/-! ## Controllers that register while others allocate -/

section Registration

/-- The allocator, and the registration variables of every controller (`none` once a controller
    has run into undefined behaviour). -/
structure Site (π ι : Type*) where
  world : World π ι
  regist : Text → Option Regist

inductive Act (π : Type*)
  | core (l : Label π)
  /-- controller `c` gets a registration message of the node `name`. -/
  | regist (c name : Text)

/-- Registration and allocation side by side. -/
def site [DecidableEq π] [DecidableEq ι] (C : Conf π ι) : Machine (Site π ι) (Act π) where
  step s
    | .core l => ((allocator C).step s.world l).map fun w => { s with world := w }
    | .regist c name =>
      (s.regist c).map fun g =>
        match C.cluster.registMsgProc g name with
        | none => { s with regist := update s.regist c none }
        | some (g', none) => { s with regist := update s.regist c (some g') }
        | some (g', some resource) =>
          { world := { s.world with store := s.world.store.insert c resource }
            regist := update s.regist c (some g') }

/-- A controller that has freed its buffers, or has no pool yet and nothing given away. -/
def Waiting (C : Conf π ι) (s : Site π ι) (c : Text) (g : Regist) : Prop :=
  g.buffers = none ∨
    (g = C.cluster.initRegist ∨ C.cluster.partSize ≠ 1 ∧ ∃ n, n ≠ [] ∧ g = C.cluster.oneRegist n) ∧
      s.world.store c = none ∧ ∀ i, ∀ x ∈ s.world.held i, x.1 ≠ c

/-- What the messages and the other code may do: the allocator's moves are single releases, the
    messages go to controllers and carry non-empty names without a comma. -/
def Conf.Orderly (C : Conf π ι) (s : Site π ι) : Act π → Prop
  | .core l => C.Single s.world l
  | .regist c name => C.IsCtrl c ∧ IsWord ',' name

/-- Where such a run begins: some controllers have their pools, the others wait for their first
    message. -/
structure Conf.Begin (C : Conf π ι) (s : Site π ι) : Prop where
  ready : C.Ready s.world
  regist : ∀ c g, C.IsCtrl c → s.regist c = some g →
    g.buffers = none ∨ g = C.cluster.initRegist ∧ s.world.store c = none

variable {C : Conf π ι} {A : Text × Text → Place ι} {s s₀ t : Site π ι} {w w' : World π ι}
  {c name : Text} {g g' : Regist}

theorem Waiting.regist {v : Option Text} (h : Waiting C s c g) (hname : name ≠ [])
    (hr : C.cluster.registMsgProc g name = some (g', v)) :
    (v = none ∧ Waiting C s c g') ∨
      (v = some (poolText [name]) ∧ C.cluster.partSize = 1 ∧ g'.buffers = none ∧
        s.world.store c = none ∧ ∀ i, ∀ x ∈ s.world.held i, x.1 ≠ c) := by
  rcases h with hfreed | ⟨rfl | ⟨hone, n, hn, rfl⟩, hnone, hheld⟩
  · rw [Cluster.registMsgProc, hfreed] at hr
    cases hr
  · rw [Cluster.registMsgProc_init] at hr
    split_ifs at hr with hK
    · cases hr
      exact .inr ⟨rfl, hK, rfl, hnone, hheld⟩
    · cases hr
      exact .inl ⟨rfl, .inr ⟨.inr ⟨hK, name, hname, rfl⟩, hnone, hheld⟩⟩
  · obtain ⟨rfl, rfl⟩ := C.cluster.registMsgProc_oneRegist hone hn hr
    exact .inl ⟨rfl, .inr ⟨.inr ⟨hone, n, hn, rfl⟩, hnone, hheld⟩⟩

variable [DecidableEq ι]

theorem Formed.arrive (h : Formed C A w) (hno : ¬C.IsCtrl []) (hc : C.IsCtrl c)
    (hname : IsWord ',' name) (hone : C.cluster.partSize = 1) (hnone : w.store c = none)
    (hheld : ∀ i, ∀ x ∈ w.held i, x.1 ≠ c) :
    ∃ A', Formed C A' { w with store := w.store.insert c (poolText [name]) } := by
  have hw : ∀ n ∈ [name], IsWord ',' n := by simpa using hname
  obtain ⟨A', hstep, hbooks⟩ := h.kept.books.arrive hc hnone hheld (counted_poolText hw)
    (nodup_singleton name)
  obtain ⟨hout, rfl⟩ := Custody.carry_eq_some hstep
  have hsp := h.spelled_insert hno hc hw
  refine ⟨_, ⟨hbooks, h.kept.claims⟩, ?_, hsp.text, hsp.blank, fun p => (h.fit p).mono hsp.grow⟩
  intro c'
  by_cases hcc : c' = c
  · subst hcc
    -- before, nothing was known under this key: it had no pool and nothing was held
    refine ⟨[name], by simp [hone], fun n hn => ?_⟩
    by_contra hne
    have hx : (c', n) ∉ under c' [name] := by simpa using hne
    rw [Custody.put_of_not_mem hx] at hn
    exact hn (h.kept.books.out_of_none hnone hheld n)
  · obtain ⟨L, hL, hmem⟩ := h.cap c'
    refine ⟨L, hL, fun n hn => hmem n ?_⟩
    have hx : (c', n) ∉ under c [name] := by simp [hcc]
    rwa [Custody.put_of_not_mem hx] at hn

variable [DecidableEq π]

/-- A swap only writes under a key that has a value: a controller without a pool stays without
    one, whatever the allocator does. -/
theorem step_store_none {l : Label π} (hl : C.Single w l) (hs : (allocator C).step w l = some w')
    (hc : C.IsCtrl c) (hnone : w.store c = none) : w'.store c = none := by
  cases l with
  | start p =>
    obtain ⟨-, rfl⟩ := start_eq hs
    exact hnone
  | complete p r =>
    obtain rfl := complete_eq hs
    exact hnone
  | insert k v =>
    cases hs
    have hck : c ≠ k := fun he => hl.1 (he ▸ hc)
    exact (Store.insert_of_ne hck w.store v).trans hnone
  | act p rand =>
    obtain ⟨o, ho, rfl⟩ := map_eq_some_iff.1 hs
    have hwrite : ∀ k v, w.store k ≠ none → w.store.insert k v c = none := by
      intro k v hk
      have hck : c ≠ k := fun he => hk (he ▸ hnone)
      rw [Store.insert_of_ne hck, hnone]
    have hrel : ∀ (r : JobResource) (pc : Rel) (o : Out (Except Fault (Option Rel))),
        C.cluster.RelStep r w.store pc o → o.store c = none := by
      intro r pc o hr
      cases hr with
      | gave i seen new hm hseen => exact hwrite _ _ (by rw [hseen]; simp)
      | outside | null | found | tokens | late => exact hnone
    have hst := Cluster.act_step ho
    generalize w.proc p = q at hst
    cases hst with
    | spilled _ _ _ _ _ _ _ hseen | took _ _ _ _ _ _ _ _ hseen => exact hwrite _ _ (by rw [hseen]; simp)
    | abandon r pc o hr | release r pc o hr => exact hrel r pc o hr
    | missing | found | broken | refused | late => exact hnone

/-- What holds in every state of registration and allocation. -/
structure Ordered (C : Conf π ι) (A : Text × Text → Place ι) (s : Site π ι) : Prop where
  formed : Formed C A s.world
  waiting : ∀ c g, C.IsCtrl c → s.regist c = some g → Waiting C s c g

theorem Ordered.core (h : Ordered C A s) (hno : ¬C.IsCtrl []) {l : Label π}
    (hl : C.Single s.world l) (hs : (allocator C).step s.world l = some w) :
    ∃ A', Ordered C A' { s with world := w } := by
  obtain ⟨A', hF, hA⟩ := h.formed.step hno hl hs
  refine ⟨A', hF, fun c g hc hg => ?_⟩
  rcases h.waiting c g hc hg with hfreed | ⟨hg', hnone, hheld⟩
  · exact .inl hfreed
  · refine .inr ⟨hg', step_store_none hl hs hc hnone, ?_⟩
    rintro i ⟨c', n⟩ hx hcc
    obtain rfl : c' = c := hcc
    -- nothing was known under the key before, and a step without arrivals changes nothing there
    have hout : A (c', n) = .out := h.formed.kept.books.out_of_none hnone hheld n
    exact hF.kept.books.tracks.known_of_held hx ((hA.out_iff _).2 hout)

theorem Ordered.step (h : Ordered C A s) (hno : ¬C.IsCtrl []) {a : Act π} (ha : C.Orderly s a)
    (hs : (site C).step s a = some t) : ∃ A', Ordered C A' t := by
  cases a with
  | core l =>
    obtain ⟨w, hw, rfl⟩ := map_eq_some_iff.1 hs
    exact h.core hno ha hw
  | regist c name =>
    obtain ⟨hc, hname⟩ := ha
    obtain ⟨g, hg, rfl⟩ := map_eq_some_iff.1 hs
    have hwait := h.waiting c g hc hg
    -- only the variables of `c` change, and at most the pool of `c` is written
    have hset : ∀ x s', s'.regist = update s.regist c x → (∀ g' ∈ x, Waiting C s' c g') →
        (∀ c' g', c' ≠ c → Waiting C s c' g' → Waiting C s' c' g') →
        ∀ c' g', C.IsCtrl c' → s'.regist c' = some g' → Waiting C s' c' g' := by
      intro x s' hx hself hother c' g' hc' hg'
      rw [hx] at hg'
      by_cases hcc : c' = c
      · subst hcc
        rw [update_self] at hg'
        exact hself g' hg'
      · rw [update_of_ne hcc] at hg'
        exact hother c' g' hcc (h.waiting c' g' hc' hg')
    cases hr : C.cluster.registMsgProc g name with
    | none => exact ⟨A, h.formed, hset none _ rfl nofun fun _ _ _ hw => hw⟩
    | some gv =>
      obtain ⟨g1, v⟩ := gv
      rcases hwait.regist hname.1 hr with ⟨rfl, hw⟩ | ⟨rfl, hone, hfreed, hnone, hheld⟩
      · refine ⟨A, h.formed, hset (some g1) _ rfl ?_ fun _ _ _ hw => hw⟩
        rintro _ ⟨⟩
        exact hw
      · obtain ⟨A', hF⟩ := h.formed.arrive hno hc hname hone hnone hheld
        refine ⟨A', hF, hset (some g1) _ rfl ?_ fun c' g' hcc hw => ?_⟩
        · rintro _ ⟨⟩
          exact .inl hfreed
        · rcases hw with hf | ⟨hg2, hn2, hh2⟩
          · exact .inl hf
          · exact .inr ⟨hg2, by simpa [Store.insert_of_ne hcc] using hn2, hh2⟩

omit [DecidableEq ι] [DecidableEq π] in
theorem Conf.Begin.ordered (h : C.Begin s) : ∃ A, Ordered C A s := by
  obtain ⟨A, hF, -⟩ := h.ready.formed
  refine ⟨A, hF, fun c g hc hg => ?_⟩
  rcases h.regist c g hc hg with hf | ⟨rfl, hnone⟩
  · exact .inl hf
  · exact .inr ⟨.inl rfl, hnone, fun i x hx => by simp [h.ready.empty i] at hx⟩

/-- **Pool values are well formed** in every state, under any interleaving of registrations,
    allocations and single releases.  So no reader finds more than `part_size + 1` tokens, and no
    thread ever overruns its token array or reads a token that is not there. -/
theorem pools_wellFormed (h0 : C.Begin s₀) (h : (site C).Reach C.Orderly s₀ s) :
    (∀ c v, C.IsCtrl c → s.world.store c = some v →
      PoolValue C.cluster v ∧ (words ',' v).length ≤ C.cluster.partSize + 1) ∧
    ∀ p, s.world.proc p ≠ .fault .tokens ∧ s.world.proc p ≠ .fault .index := by
  obtain ⟨A, hO⟩ : ∃ A, Ordered C A s := by
    refine h.invariant (I := fun u => ∃ A, Ordered C A u) h0.ordered ?_
    rintro u a v ⟨A, hO⟩ ha hs
    exact hO.step h0.ready.named ha hs
  constructor
  · intro c v hc hv
    have hp := hO.formed.poolValue hc hv
    exact ⟨hp, hp.length_words_le⟩
  · intro p
    have hfit := hO.formed.fit p
    constructor
    · intro he
      rw [he] at hfit
      exact hfit.1 rfl
    · intro he
      rw [he] at hfit
      exact hfit.2 rfl

instance [Fintype π] (C : Conf π ι) (s : World π ι) : ∀ l, Decidable (C.Single s l)
  | .start _ => inferInstanceAs (Decidable True)
  | .act _ _ => inferInstanceAs (Decidable True)
  | .complete p r => inferInstanceAs (Decidable (C.Sound s (.complete p r) ∧ _))
  | .insert _ _ => inferInstanceAs (Decidable (_ ∧ _))

instance [Fintype π] (C : Conf π ι) (s : Site π ι) : ∀ a, Decidable (C.Orderly s a)
  | .core l => inferInstanceAs (Decidable (C.Single s.world l))
  | .regist _ _ => inferInstanceAs (Decidable (_ ∧ _))

def soloConf : Conf (Fin 1) (Fin 1) where
  cluster := ⟨1, ["a".toList]⟩
  selfId _ := "a".toList
  need _ := 1
  owner p := p

def soloSite : Site (Fin 1) (Fin 1) where
  world := ⟨fun _ => none, fun _ => .idle, fun _ => ∅, fun _ => []⟩
  regist _ := some soloConf.cluster.initRegist

theorem soloSite_begin : soloConf.Begin soloSite := by
  refine ⟨⟨fun _ => rfl, fun _ => rfl, by decide, rfl, ?_⟩, ?_⟩
  · intro c v _ hv
    simp [soloSite] at hv
  · intro c g _ hg
    exact .inr ⟨(some.inj hg).symm, rfl⟩

/-- The node registers, is taken, and comes back. -/
theorem pools_wellFormed_solo :
    ∃ s, (site soloConf).Reach soloConf.Orderly soloSite s ∧
      s.world.proc 0 = .released ∧ s.world.store "a".toList = some "1,n1".toList ∧
      PoolValue soloConf.cluster "1,n1".toList := by
  have hr : (site soloConf).Reach soloConf.Orderly soloSite _ :=
    .of_run [.regist "a".toList "n1".toList, .core (.start 0), .core (.act 0 0), .core (.act 0 0), .core (.complete 0
        ⟨0, 1, "n1".toList, "a,".toList, 1, ["a".toList], ["n1,".toList], true⟩),
      .core (.act 0 0), .core (.act 0 0)] .start (by decide) rfl
  exact ⟨_, hr, by decide, by decide, ((pools_wellFormed soloSite_begin hr).1 "a".toList _ (by decide) (by decide)).1⟩

end Registration

end Slurmpp.Controller
