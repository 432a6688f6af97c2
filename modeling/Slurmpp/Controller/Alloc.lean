/-
  The allocator: threads on many controllers taking nodes out of shared pools and putting them back.

  `Proc` is the program counter of a thread in `allocate_res` or `release_res` with its private data;
  `Cluster.act` is the code from one store operation to just before the next.  A swap and a lookup are ATOMIC;
  everything else in a step is private, so the interleavings of the machine `allocator` are exactly those of the
  single store operations.  `Cluster.Step` and `Cluster.RelStep` list, once and for all, what a step can do.

  The ledger `held`, `gave` is no part of the program: what a successful swap of `_allocate_node` hands to the job
  goes into `held`, what one of `release_res` merges into a pool goes out of it and is noted in `gave`.
-/
import Slurmpp.Lib.Machine
import Slurmpp.Lib.Store
import Slurmpp.Controller.JobResource

namespace Slurmpp.Controller

open Option

open Text (words)

/-- The shared store: node pools and job information. -/
abbrev Zht := Store Text Text

/-- Where `release_res` stands: about to look up the pool of slot `i`, or about to swap it. -/
inductive Rel
  | lookup (i : Nat)
  | swap (i : Nat) (seen : Text)
deriving DecidableEq, Repr

def Rel.slot : Rel → Nat
  | .lookup i => i
  | .swap i _ => i

inductive Proc
  | idle
  /-- `allocate_one_res` before its lookup of the pool of `ctrl`. -/
  | look (r : JobResource) (ctrl : Text)
  /-- `do_allocate` called with the pool value `seen`. -/
  | take (r : JobResource) (ctrl seen : Text)
  /-- `release_res` after too many failed tries. -/
  | abandon (r : JobResource) (pc : Rel)
  /-- `allocate_res` has returned `r`. -/
  | holding (r : JobResource)
  /-- `release_res` called on completion. -/
  | release (r : JobResource) (pc : Rel)
  | released
  | fault (f : Fault)
deriving DecidableEq, Repr

/-- What a step means for the books. -/
inductive Event
  | quiet
  | took (ctrl : Text) (nodes : List Text)
  | gave (ctrl : Text) (nodes : List Text)
deriving DecidableEq, Repr

structure Out (α : Type) where
  store : Zht
  next : α
  event : Event

/-- `release_res` from slot `i` on: the next lookup, or nothing left to do. -/
def releaseFrom (r : JobResource) (i : Nat) : Option Rel :=
  if i < r.numCtrl then some (.lookup i) else none

namespace Cluster

def releaseRes (K : Cluster) (r : JobResource) (st : Zht) : Rel → Out (Except Fault (Option Rel))
  | .lookup i =>
    if i < r.ctrlIds2.length ∧ i < r.nodeAlloc.length then
      match st (r.ctrlIds2.getD i []) with
      | none => ⟨st, .error .null, .quiet⟩
      | some ctrlPreRes => ⟨st, .ok (some (.swap i ctrlPreRes)), .quiet⟩
    else ⟨st, .error .slot, .quiet⟩
  | .swap i seen =>
    match K.mergeResStr seen (r.nodeAlloc.getD i []) with
    | none => ⟨st, .error .tokens, .quiet⟩
    | some result =>
      match st.compareSwap (r.ctrlIds2.getD i []) seen result with
      | .error cur => ⟨st, .ok (some (.swap i (cur.getD []))), .quiet⟩
      | .ok st' =>
        ⟨st', .ok (releaseFrom r (i + 1)), .gave (r.ctrlIds2.getD i []) (words ',' (r.nodeAlloc.getD i []))⟩

/-- The end of the loop body of `allocate_res` and the test of its condition: the next controller
    is drawn before the test. -/
def loopHead (K : Cluster) (need rand : Nat) (r : JobResource) : Proc :=
  match K.memList[rand % K.numCtrl]? with
  | none => .fault .slot
  | some ctrl => if r.numNode < need then .look r ctrl else .holding r

/-- `allocate_res` after `allocate_one_res` has returned. -/
def again (K : Cluster) (need rand : Nat) (r : JobResource) : Proc :=
  if 3 < r.numTry then
    match releaseFrom r 0 with
    | some pc => .abandon r pc
    | none => K.loopHead need rand (K.resetJobResource r)
  else K.loopHead need rand r

def failed (r : JobResource) : JobResource := { r with numTry := r.numTry + 1 }

/-- The beginning of `allocate_res` on the controller `selfId`. -/
def begin (K : Cluster) (selfId : Text) (need : Nat) : Proc :=
  if 0 < need then .look K.initJobResource selfId else .holding K.initJobResource

def afterAbandon (K : Cluster) (need rand : Nat) (r : JobResource) :
    Except Fault (Option Rel) → Proc
  | .error f => .fault f
  | .ok (some pc) => .abandon r pc
  | .ok none => K.loopHead need rand (K.resetJobResource r)

def afterRelease (r : JobResource) : Except Fault (Option Rel) → Proc
  | .error f => .fault f
  | .ok (some pc) => .release r pc
  | .ok none => .released

/-- One store operation of a thread of the controller `selfId` whose job needs `need` nodes, and
    the private code after it. -/
def act (K : Cluster) (selfId : Text) (need rand : Nat) (st : Zht) : Proc → Option (Out Proc)
  | .look r ctrl =>
    match st ctrl with
    | none => some ⟨st, K.again need rand (failed r), .quiet⟩
    | some ctrlRes => some ⟨st, .take r ctrl ctrlRes, .quiet⟩
  | .take r ctrl seen =>
    match K.doAllocate seen (need - r.numNode) with
    | .fault f => some ⟨st, .fault f, .quiet⟩
    | .refused => some ⟨st, K.again need rand (failed r), .quiet⟩
    | .swap num nodelist newValue =>
      match st.compareSwap ctrl seen newValue with
      | .error cur => some ⟨st, .take r ctrl (cur.getD []), .quiet⟩
      | .ok st' =>
        match K.updateJobResource selfId r num ctrl nodelist with
        | none => some ⟨st', .fault .slot, .took ctrl (words ',' nodelist)⟩
        | some r' => some ⟨st', K.again need rand r', .took ctrl (words ',' nodelist)⟩
  | .abandon r pc =>
    let o := K.releaseRes r st pc
    some ⟨o.store, K.afterAbandon need rand r o.next, o.event⟩
  | .release r pc =>
    let o := K.releaseRes r st pc
    some ⟨o.store, afterRelease r o.next, o.event⟩
  | .idle | .holding _ | .released | .fault _ => none

end Cluster

/-! ## The machine -/

/-- Who runs: the cluster, and for each thread its controller, the nodes its job needs, and the
    job it works for. -/
structure Conf (π ι : Type*) where
  cluster : Cluster
  selfId : π → Text
  need : π → Nat
  owner : π → ι

/-- The keys under which pools stand: the controllers of the membership list and those that run
    threads. -/
def Conf.IsCtrl {π ι : Type*} (C : Conf π ι) (c : Text) : Prop :=
  c ∈ C.cluster.memList ∨ ∃ p, C.selfId p = c

structure World (π ι : Type*) where
  store : Zht
  proc : π → Proc
  held : ι → Finset (Text × Text)
  gave : ι → List (Text × Text)

inductive Label (π : Type*)
  | start (p : π)
  | act (p : π) (rand : Nat)
  | complete (p : π) (r : JobResource)
  | insert (k v : Text)

def Proc.beginRelease (r : JobResource) : Proc := Cluster.afterRelease r (.ok (releaseFrom r 0))

def Proc.canComplete : Proc → Bool
  | .idle | .holding _ => true
  | _ => false

section Machine

variable {π ι : Type*} [DecidableEq ι]

/-- The ledger after an event of a thread of job `i`. -/
def Event.post (e : Event) (i : ι) (held : ι → Finset (Text × Text)) : ι → Finset (Text × Text) :=
  match e with
  | .quiet => held
  | .took c ns => Function.update held i (held i ∪ (under c ns).toFinset)
  | .gave c ns => Function.update held i (held i \ (under c ns).toFinset)

/-- What has been given back, after an event of a thread of job `i`. -/
def Event.note (e : Event) (i : ι) (gave : ι → List (Text × Text)) : ι → List (Text × Text) :=
  match e with
  | .gave c ns => Function.update gave i (gave i ++ under c ns)
  | _ => gave

variable {held : ι → Finset (Text × Text)}

theorem mem_post_took {i j : ι} {c : Text} {ns : List Text} {x : Text × Text} :
    x ∈ (Event.took c ns).post i held j ↔ x ∈ held j ∨ j = i ∧ x ∈ under c ns := by
  rw [Event.post]
  by_cases hj : j = i
  · subst hj
    simp
  · simp [hj]

theorem mem_post_gave {i j : ι} {c : Text} {ns : List Text} {x : Text × Text} :
    x ∈ (Event.gave c ns).post i held j ↔ x ∈ held j ∧ ¬(j = i ∧ x ∈ under c ns) := by
  rw [Event.post]
  by_cases hj : j = i
  · subst hj
    simp
  · simp [hj]

variable [DecidableEq π]

def World.moved (C : Conf π ι) (s : World π ι) (p : π) (o : Out Proc) : World π ι where
  store := o.store
  proc := Function.update s.proc p o.next
  held := o.event.post (C.owner p) s.held
  gave := o.event.note (C.owner p) s.gave

def allocator (C : Conf π ι) : Machine (World π ι) (Label π) where
  step s
    | .start p =>
      if s.proc p = .idle then
        some { s with proc := Function.update s.proc p (C.cluster.begin (C.selfId p) (C.need p)) }
      else none
    | .act p rand =>
      (C.cluster.act (C.selfId p) (C.need p) rand s.store (s.proc p)).map (s.moved C p)
    | .complete p r =>
      if (s.proc p).canComplete then
        some { s with proc := Function.update s.proc p (.beginRelease r) }
      else none
    | .insert k v => some { s with store := s.store.insert k v }

variable {C : Conf π ι} {s t : World π ι} {p : π}

theorem start_eq (h : (allocator C).step s (.start p) = some t) : s.proc p = .idle ∧
    t = { s with proc := Function.update s.proc p (C.cluster.begin (C.selfId p) (C.need p)) } := by
  rw [allocator, Option.ite_none_right_eq_some] at h
  exact ⟨h.1, (Option.some.inj h.2).symm⟩

theorem complete_eq {r : JobResource} (h : (allocator C).step s (.complete p r) = some t) :
    t = { s with proc := Function.update s.proc p (.beginRelease r) } := by
  rw [allocator, Option.ite_none_right_eq_some] at h
  exact (Option.some.inj h.2).symm

end Machine

/-! ## What a step can do -/

section Steps

variable {K : Cluster} {r : JobResource} {st : Zht} {selfId : Text} {need rand : Nat}

/-- The outcomes of one store operation of `release_res`. -/
inductive Cluster.RelStep (K : Cluster) (r : JobResource) (st : Zht) :
    Rel → Out (Except Fault (Option Rel)) → Prop
  | outside (i : Nat) (h : ¬(i < r.ctrlIds2.length ∧ i < r.nodeAlloc.length)) :
      RelStep K r st (.lookup i) ⟨st, .error .slot, .quiet⟩
  | null (i : Nat) (h : st (r.ctrlIds2.getD i []) = none) :
      RelStep K r st (.lookup i) ⟨st, .error .null, .quiet⟩
  | found (i : Nat) (v : Text) (h : st (r.ctrlIds2.getD i []) = some v) :
      RelStep K r st (.lookup i) ⟨st, .ok (some (.swap i v)), .quiet⟩
  | tokens (i : Nat) (seen : Text) (h : K.mergeResStr seen (r.nodeAlloc.getD i []) = none) :
      RelStep K r st (.swap i seen) ⟨st, .error .tokens, .quiet⟩
  | late (i : Nat) (seen : Text) (h : st (r.ctrlIds2.getD i []) ≠ some seen) :
      RelStep K r st (.swap i seen)
        ⟨st, .ok (some (.swap i ((st (r.ctrlIds2.getD i [])).getD []))), .quiet⟩
  | gave (i : Nat) (seen new : Text) (hm : K.mergeResStr seen (r.nodeAlloc.getD i []) = some new)
      (h : st (r.ctrlIds2.getD i []) = some seen) :
      RelStep K r st (.swap i seen)
        ⟨st.insert (r.ctrlIds2.getD i []) new, .ok (releaseFrom r (i + 1)),
          .gave (r.ctrlIds2.getD i []) (words ',' (r.nodeAlloc.getD i []))⟩

/-- The outcomes of one store operation of a thread. -/
inductive Cluster.Step (K : Cluster) (selfId : Text) (need rand : Nat) (st : Zht) :
    Proc → Out Proc → Prop
  | missing (r : JobResource) (c : Text) (h : st c = none) :
      Step K selfId need rand st (.look r c) ⟨st, K.again need rand (failed r), .quiet⟩
  | found (r : JobResource) (c v : Text) (h : st c = some v) :
      Step K selfId need rand st (.look r c) ⟨st, .take r c v, .quiet⟩
  | broken (r : JobResource) (c seen : Text) (f : Fault)
      (h : K.doAllocate seen (need - r.numNode) = .fault f) :
      Step K selfId need rand st (.take r c seen) ⟨st, .fault f, .quiet⟩
  | refused (r : JobResource) (c seen : Text) (h : K.doAllocate seen (need - r.numNode) = .refused) :
      Step K selfId need rand st (.take r c seen) ⟨st, K.again need rand (failed r), .quiet⟩
  | late (r : JobResource) (c seen : Text) (h : st c ≠ some seen) :
      Step K selfId need rand st (.take r c seen) ⟨st, .take r c ((st c).getD []), .quiet⟩
  | spilled (r : JobResource) (c seen : Text) (num : Nat) (nl new : Text)
      (h : K.doAllocate seen (need - r.numNode) = .swap num nl new) (hs : st c = some seen)
      (hu : K.updateJobResource selfId r num c nl = none) :
      Step K selfId need rand st (.take r c seen)
        ⟨st.insert c new, .fault .slot, .took c (words ',' nl)⟩
  | took (r r' : JobResource) (c seen : Text) (num : Nat) (nl new : Text)
      (h : K.doAllocate seen (need - r.numNode) = .swap num nl new) (hs : st c = some seen)
      (hu : K.updateJobResource selfId r num c nl = some r') :
      Step K selfId need rand st (.take r c seen)
        ⟨st.insert c new, K.again need rand r', .took c (words ',' nl)⟩
  | abandon (r : JobResource) (pc : Rel) (o : Out (Except Fault (Option Rel)))
      (h : K.RelStep r st pc o) :
      Step K selfId need rand st (.abandon r pc)
        ⟨o.store, K.afterAbandon need rand r o.next, o.event⟩
  | release (r : JobResource) (pc : Rel) (o : Out (Except Fault (Option Rel)))
      (h : K.RelStep r st pc o) :
      Step K selfId need rand st (.release r pc) ⟨o.store, afterRelease r o.next, o.event⟩

theorem Cluster.releaseRes_step (K : Cluster) (r : JobResource) (st : Zht) (pc : Rel) :
    K.RelStep r st pc (K.releaseRes r st pc) := by
  fun_cases releaseRes with
  | case1 i hi hv => exact .null i hv
  | case2 i hi v hv => exact .found i v hv
  | case3 i hi => exact .outside i hi
  | case4 i seen hm => exact .tokens i seen hm
  | case5 i seen new hm cur hs =>
    obtain ⟨hseen, rfl⟩ := Store.compareSwap_error hs
    exact .late i seen hseen
  | case6 i seen new hm st' hs =>
    obtain ⟨hseen, rfl⟩ := Store.compareSwap_ok hs
    exact .gave i seen new hm hseen

/-- **Every step is one of those listed.** -/
theorem Cluster.act_step {q : Proc} {o : Out Proc} (h : K.act selfId need rand st q = some o) :
    K.Step selfId need rand st q o := by
  revert h
  fun_cases act <;> rintro ⟨⟩
  case case1 r c hv => exact .missing r c hv
  case case2 r c v hv => exact .found r c v hv
  case case3 r c seen f ha => exact .broken r c seen f ha
  case case4 r c seen ha => exact .refused r c seen ha
  case case5 r c seen num nl new ha cur hs =>
    obtain ⟨hseen, rfl⟩ := Store.compareSwap_error hs
    exact .late r c seen hseen
  case case6 r c seen num nl new ha st' hs hu =>
    obtain ⟨hseen, rfl⟩ := Store.compareSwap_ok hs
    exact .spilled r c seen num nl new ha hseen hu
  case case7 r c seen num nl new ha st' hs r' hu =>
    obtain ⟨hseen, rfl⟩ := Store.compareSwap_ok hs
    exact .took r r' c seen num nl new ha hseen hu
  case case8 r pc _ => exact .abandon r pc _ (K.releaseRes_step r st pc)
  case case9 r pc _ => exact .release r pc _ (K.releaseRes_step r st pc)

end Steps

end Slurmpp.Controller
