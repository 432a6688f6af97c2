/-
  The switches of topology.conf: `_validate_switches` of `plugins/topology/tree/topology_tree.c`.

  A switch has nodes (a leaf, level 0) or child switches, whose names are looked up in the table.
  The level and the nodes of the others are found in rounds over the table: a round resolves a switch
  whose children are all resolved when its turn comes, in whatever order the file lists them, and the
  rounds go on until one leaves nothing unresolved.  A round never takes a switch back (`pass_spec`),
  and of the unresolved switches of a TREE one has no unresolved child, so each round makes progress.
  Nothing looks for a round WITHOUT progress: switches that wait for one another (`Waits`) are gone
  through for ever.
-/
import Slurmpp.Lib.Digraph

namespace Slurmpp.Topology

open Function List

/-- `slurm_conf_switches_t`: a line of the file, without its link speed. -/
structure ConfSwitches (Name Text : Type) where
  switchName : Name
  nodes : Option Text
  switches : Option Text

/-- What `_read_topo_file` gives, and the code outside that the plugin calls: `hostlist_create`, the
names of a text in their order, and `find_node_record`, the index of a node. -/
structure Conf (Name Text : Type) where
  ptrArray : List (ConfSwitches Name Text)
  hostlistCreate : Text → Option (List Name)
  findNodeRecord : Name → Option Nat

inductive Fatal (Name Text : Type)
  | alreadyDefined (name : Name)
  | invalidNodeName (nodes : Text) (name : Name)
  | lacksChildren (name : Name)
  | invalidSwitches (switches : Option Text)
  | invalidChild (name child : Name)
  | noNodes

/-- `level` and `node_bitmap` of a switch, as a set of node indices; level `-1` and a null bitmap go
together in the table and are `none` there. -/
structure Place where
  level : Nat
  nodes : Finset Nat
deriving Inhabited

/-- What the loop over the children of a switch comes to. -/
inductive Scan (Name : Type)
  | invalid (child : Name)
  | unresolved
  | value (place : Option Place)

/-- A child's level and nodes taken in. -/
def Place.take (q : Place) : Option Place → Place
  | none => ⟨1 + q.level, q.nodes⟩
  | some p => ⟨max p.level (q.level + 1), p.nodes ∪ q.nodes⟩

variable {Name Text : Type} [DecidableEq Name]

namespace Conf

variable (c : Conf Name Text)

/-- `switch_record_cnt`. -/
abbrev cnt : Nat := c.ptrArray.length

abbrev Table : Type := Fin c.cnt → Option Place

def name (i : Fin c.cnt) : Name := (c.ptrArray.get i).switchName

def nodes (i : Fin c.cnt) : Option Text := (c.ptrArray.get i).nodes

def switches (i : Fin c.cnt) : Option Text := (c.ptrArray.get i).switches

/-- `_node_name2bitmap`: names without a node record are only reported. -/
def nodeName2bitmap (names : List Name) : Finset Nat := (names.filterMap c.findNodeRecord).toFinset

/-- The entry of the first loop for a switch: a leaf is level 0, the rest is determined later. -/
def leaf (i : Fin c.cnt) : Option Place :=
  ((c.nodes i).bind c.hostlistCreate).map fun names => ⟨0, c.nodeName2bitmap names⟩

/-- What the first loop has against a switch. -/
def refusal (i : Fin c.cnt) : Option (Fatal Name Text) :=
  if ∃ j < i, c.name j = c.name i then some (.alreadyDefined (c.name i))
  else match c.nodes i, c.switches i with
    | some text, _ => if c.hostlistCreate text = none then some (.invalidNodeName text (c.name i)) else none
    | none, some _ => none
    | none, none => some (.lacksChildren (c.name i))

/-- `_get_switch_inx`. -/
def getSwitchInx (name : Name) : Option (Fin c.cnt) := (List.finRange c.cnt).find? fun i => c.name i = name

/-- The index of a child of switch `i`, if it is a switch and another one. -/
def child (i : Fin c.cnt) (name : Name) : Option (Fin c.cnt) := (c.getSwitchInx name).filter fun j => j ≠ i

/-- The children as `hostlist_pop` gives them, the last first. -/
def pops (i : Fin c.cnt) : Option (List Name) := ((c.switches i).bind c.hostlistCreate).map List.reverse

def scan (t : c.Table) (i : Fin c.cnt) (p : Option Place) : List Name → Scan Name
  | [] => .value p
  | x :: xs =>
    match c.child i x with
    | none => .invalid x
    | some j =>
      match t j with
      | none => .unresolved
      | some q => scan t i (some (q.take p)) xs

/-- One round over the table; the flag is `resolved`. -/
def pass (t : c.Table) (resolved : Bool) :
    List (Fin c.cnt) → Except (Fatal Name Text) (c.Table × Bool)
  | [] => .ok (t, resolved)
  | i :: is =>
    match t i, c.pops i with
    | some _, _ => pass t resolved is
    | none, none => .error (.invalidSwitches (c.switches i))
    | none, some ps =>
      match c.scan t i none ps with
      | .invalid x => .error (.invalidChild (c.name i) x)
      | .unresolved => pass t false is
      | .value p => pass (update t i p) resolved is

/-- The rounds, `none` when `fuel` of them do not bring the loop to its end. -/
def rounds : Nat → c.Table → Option (Except (Fatal Name Text) c.Table)
  | 0, _ => none
  | fuel + 1, t =>
    match c.pass t true (List.finRange c.cnt) with
    | .error why => some (.error why)
    | .ok (t', true) => some (.ok t')
    | .ok (t', false) => rounds fuel t'

/-- `_validate_switches`: the table it leaves, or the fatal error.  The first loop ends at the first
switch it refuses; `switches_bitmap` is there as soon as one switch has nodes. -/
def validateSwitches (fuel : Nat) : Option (Except (Fatal Name Text) c.Table) :=
  if c.cnt = 0 then some (.ok fun _ => none)
  else match (finRange c.cnt).findSome? c.refusal with
    | some why => some (.error why)
    | none => (c.rounds fuel c.leaf).map fun r => r.bind fun t =>
        if ∃ i, (c.nodes i).isSome then .ok t else .error .noNodes

/-- The children of `i` among `xs`. -/
def among (i : Fin c.cnt) (xs : List Name) : Finset (Fin c.cnt) := (xs.filterMap (c.child i)).toFinset

/-- The children of `i`. -/
def kids (i : Fin c.cnt) : Finset (Fin c.cnt) := c.among i ((c.pops i).getD [])

/-- A child in `U` comes before any invalid one. -/
def Blocks (U : Fin c.cnt → Prop) (i : Fin c.cnt) : List Name → Prop
  | [] => False
  | x :: xs => ∃ j, c.child i x = some j ∧ (U j ∨ Blocks U i xs)

def Readable : Prop := ∀ i text, c.nodes i = some text → c.hostlistCreate text ≠ none

def Valid (i : Fin c.cnt) : Prop := ∃ ps, c.pops i = some ps ∧ ∀ x ∈ ps, c.child i x ≠ none

/-- The switches of `U` wait for one another, and there is nothing against the others. -/
structure Waits (U : Fin c.cnt → Prop) : Prop where
  readable : c.Readable
  blocks : ∀ i, U i → c.nodes i = none ∧ ∃ ps, c.pops i = some ps ∧ c.Blocks U i ps
  valid : ∀ i, ¬U i → c.nodes i = none → c.Valid i

/-- The levels and node sets that fit together. -/
def Fits (place : Fin c.cnt → Place) : Prop := ∀ i, place i =
  (c.leaf i).getD ⟨1 + (c.kids i).sup fun j => (place j).level, (c.kids i).sup fun j => (place j).nodes⟩

variable {c} {t t' : c.Table} {i : Fin c.cnt} {p v : Option Place} {xs : List Name} {U V : Fin c.cnt → Prop}

/-! ## The loop over the children -/

theorem Blocks.mono (hUV : ∀ j, U j → V j) (h : c.Blocks U i xs) : c.Blocks V i xs := by
  induction xs with
  | nil => exact h
  | cons x xs ih =>
    obtain ⟨j, hj, hU⟩ := h
    exact ⟨j, hj, hU.imp (hUV j) ih⟩

theorem Blocks.exists_mem (h : c.Blocks U i xs) : ∃ j ∈ c.among i xs, U j := by
  induction xs with
  | nil => exact h.elim
  | cons x xs ih =>
    obtain ⟨j, hj, hU | hrest⟩ := h
    · exact ⟨j, by simp [among, hj], hU⟩
    · obtain ⟨k, hk, hU⟩ := ih hrest
      exact ⟨k, by simp_all [among], hU⟩

theorem scan_unresolved_iff : c.scan t i p xs = .unresolved ↔ c.Blocks (fun j => t j = none) i xs := by
  fun_induction scan with
  | case1 => simp [Blocks]
  | case2 p x xs hx => simp [Blocks, hx]
  | case3 p x xs j hj hnone => simp [Blocks, hj, hnone]
  | case4 p x xs j hj q hq ih => simp [Blocks, hj, hq, ih]

theorem invalid_of_scan {x : Name} (h : c.scan t i p xs = .invalid x) : x ∈ xs ∧ c.child i x = none := by
  fun_induction scan with
  | case1 | case3 => cases h
  | case2 p x xs hx =>
    cases h
    exact ⟨mem_cons_self, hx⟩
  | case4 p x xs j hj q hq ih => exact (ih h).imp_left (mem_cons_of_mem _)

theorem resolved_of_scan (h : c.scan t i p xs = .value v) : ∀ x ∈ xs, ∃ j q, c.child i x = some j ∧ t j = some q := by
  fun_induction scan with
  | case1 => exact forall_mem_nil _
  | case2 | case3 => cases h
  | case4 p x xs j hj q hq ih => exact forall_mem_cons.2 ⟨⟨j, q, hj, hq⟩, ih h⟩

section Values

variable {place : Fin c.cnt → Place} (ht : ∀ j q, t j = some q → q = place j)

include ht

theorem scan_some {q : Place} (h : c.scan t i (some q) xs = .value v) :
    v = some ⟨q.level ⊔ (c.among i xs).sup fun j => (place j).level + 1,
      q.nodes ⊔ (c.among i xs).sup fun j => (place j).nodes⟩ := by
  induction xs generalizing q with
  | nil =>
    cases h
    simp [among]
  | cons x xs ih =>
    obtain ⟨j, r, hj, hr⟩ := resolved_of_scan h x mem_cons_self
    simp only [scan, hj, hr] at h
    rw [ih h, ht j r hr]
    simp [among, hj, Place.take, max_assoc]

/-- **What a switch gets from its children.** -/
theorem scan_none (hne : xs ≠ []) (h : c.scan t i none xs = .value v) :
    v = some ⟨1 + (c.among i xs).sup fun j => (place j).level, (c.among i xs).sup fun j => (place j).nodes⟩ := by
  cases xs with
  | nil => exact absurd rfl hne
  | cons x xs =>
    obtain ⟨j, q, hj, hq⟩ := resolved_of_scan h x mem_cons_self
    have hmem : (c.among i (x :: xs)).Nonempty := ⟨j, by simp [among, hj]⟩
    simp only [scan, hj, hq] at h
    rw [scan_some ht h, ht j q hq, Nat.add_comm, Finset.sup_add hmem]
    simp [among, hj, Place.take, Nat.add_comm]

end Values

/-! ## The rounds -/

/-- A table of the rounds: every leaf is in it, none that waits is, and what it holds is right. -/
structure Settling (place : Fin c.cnt → Place) (t : c.Table) : Prop where
  above : ∀ i, t i = none → c.nodes i = none
  valid : ∀ i, t i ≠ none → c.nodes i = none → c.Valid i
  waiting : ∀ U, c.Waits U → ∀ i, U i → t i = none
  right : c.Fits place → ∀ i q, t i = some q → q = place i

/-- A round from `t` to `t'` over the switches `is`. -/
structure Round (place : Fin c.cnt → Place) (is : List (Fin c.cnt)) (t t' : c.Table) (b b' : Bool) : Prop where
  settling : Settling place t'
  kept : ∀ j, t' j = none → t j = none
  flag : b = false → b' = false
  unresolved : b' = false → b = false ∨ ∃ i, t i = none
  left : ∀ i ∈ is, t' i = none → b' = false ∧ ∃ ps, c.pops i = some ps ∧ c.Blocks (fun j => t j = none) i ps

/-- Where some wait, the loop over the children finds no fault, and leaves these unresolved. -/
theorem Waits.scan (hw : c.Waits U) (ht : ∀ j, U j → t j = none) (hnode : c.nodes i = none) :
    ∃ ps, c.pops i = some ps ∧ (∀ x, c.scan t i none ps ≠ .invalid x) ∧ (U i → c.scan t i none ps = .unresolved) := by
  by_cases hi : U i
  · obtain ⟨-, ps, hps, hblocks⟩ := hw.blocks i hi
    have hscan : c.scan t i none ps = .unresolved := scan_unresolved_iff.2 (hblocks.mono ht)
    exact ⟨ps, hps, fun x h => (nomatch hscan.symm.trans h), fun _ => hscan⟩
  · obtain ⟨ps, hps, hvalid⟩ := hw.valid i hi hnode
    refine ⟨ps, hps, fun x h => ?_, fun h => absurd h hi⟩
    exact hvalid x (invalid_of_scan h).1 (invalid_of_scan h).2

end Conf

/-- The switches have distinct names, and each has nodes or child switches. -/
structure SwitchConf (Name Text : Type) [DecidableEq Name] extends Conf Name Text where
  distinct : ∀ i j : Fin toConf.cnt, toConf.name i = toConf.name j → i = j
  children : ∀ i, toConf.nodes i = none → toConf.switches i ≠ none ∧ toConf.pops i ≠ some []

namespace SwitchConf

open Conf

variable {c : SwitchConf Name Text} {place : Fin c.cnt → Place} {t : c.Table}

/-- **One round**: fatal where no set of switches could wait, or nothing resolved is lost and what is
left waits for a child. -/
theorem pass_spec (ht : Settling place t) (b : Bool) (is : List (Fin c.cnt)) :
    (∃ why, c.pass t b is = .error why) ∧ (∀ U, ¬c.Waits U) ∨
      ∃ t' b', c.pass t b is = .ok (t', b') ∧ Round place is t t' b b' := by
  fun_induction Conf.pass with
  | case1 t b => exact .inr ⟨t, b, rfl, ht, fun _ => id, id, .inl, forall_mem_nil _⟩
  | case2 t b i is q hq ih =>
    refine (ih ht).imp_right fun ⟨t', b', h, r⟩ => ⟨t', b', h, { r with left := forall_mem_cons.2 ⟨?_, r.left⟩ }⟩
    exact fun hnone => nomatch hq.symm.trans (r.kept i hnone)
  | case3 t b i is hps hi =>
    refine .inl ⟨⟨_, rfl⟩, fun U hw => ?_⟩
    obtain ⟨ps, hps', -⟩ := hw.scan (ht.waiting U hw) (ht.above i hi)
    exact nomatch hps.symm.trans hps'
  | case4 t b i is ps hps hi x hscan =>
    refine .inl ⟨⟨_, rfl⟩, fun U hw => ?_⟩
    obtain ⟨ps', hps', hfine, -⟩ := hw.scan (ht.waiting U hw) (ht.above i hi)
    cases hps.symm.trans hps'
    exact hfine x hscan
  | case5 t b i is ps hps hi hscan ih =>
    exact (ih ht).imp_right fun ⟨t', b', h, r⟩ => ⟨t', b', h, { r with
      flag := fun _ => r.flag rfl
      unresolved := fun _ => .inr ⟨i, hi⟩
      left := forall_mem_cons.2 ⟨fun _ => ⟨r.flag rfl, ps, hps, scan_unresolved_iff.1 hscan⟩, r.left⟩ }⟩
  | case6 t b i is ps hps hi v hscan ih =>
    have hnode := ht.above i hi
    have hne : ps ≠ [] := fun hnil => (c.children i hnode).2 (hnil ▸ hps)
    have ht' : ∀ j q, t j = some q → q = (t j).getD default := fun j q hq => by rw [hq]; rfl
    have hv := scan_none ht' hne hscan
    have hup : ∀ j, update t i v j = none → t j = none :=
      (forall_update_iff t fun j q => q = none → t j = none).2 ⟨fun _ => hi, fun _ _ => id⟩
    have hset : Settling place (update t i v) := by
      refine ⟨fun j hj => ht.above j (hup j hj),
        (forall_update_iff t fun j o => o ≠ none → c.nodes j = none → c.Valid j).2
          ⟨fun _ _ => ⟨ps, hps, fun x hx => ?_⟩, fun j _ => ht.valid j⟩, fun U hw => ?_, fun hfits => ?_⟩
      · obtain ⟨j, -, hj, -⟩ := resolved_of_scan hscan x hx
        exact hj ▸ nofun
      · refine (forall_update_iff t fun j o => U j → o = none).2 ⟨fun hU => ?_, fun j _ => ht.waiting U hw j⟩
        obtain ⟨ps', hps', -, hwait⟩ := hw.scan (ht.waiting U hw) hnode
        cases hps.symm.trans hps'
        exact nomatch (hwait hU).symm.trans hscan
      · refine (forall_update_iff t fun j o => ∀ q, o = some q → q = place j).2 ⟨fun q hq => ?_, fun j _ => ht.right hfits j⟩
        rw [scan_none (ht.right hfits) hne hscan] at hq
        rw [← Option.some.inj hq, hfits i, leaf, hnode, kids, hps]
        rfl
    refine (ih hset).imp_right fun ⟨t', b', h, r⟩ => ⟨t', b', h, r.settling, fun j hj => hup j (r.kept j hj), r.flag,
      fun hf => (r.unresolved hf).imp_right fun ⟨j, hj⟩ => ⟨j, hup j hj⟩, forall_mem_cons.2 ⟨fun hnone => ?_, ?_⟩⟩
    · exact nomatch (r.kept i hnone).symm.trans ((update_self ..).trans hv)
    · intro j hj hnone
      obtain ⟨hf, ps', hps', hblocks⟩ := r.left j hj hnone
      exact ⟨hf, ps', hps', hblocks.mono hup⟩

/-- **How the rounds end**: fatal, or with every switch in its place. -/
theorem rounds_spec (ht : Settling place t) {fuel : Nat} {r : Except (Fatal Name Text) c.Table}
    (h : c.rounds fuel t = some r) :
    (∀ U, ¬c.Waits U) ∨ ∃ t', r = .ok t' ∧ Settling place t' ∧ ∀ i, t' i ≠ none := by
  induction fuel generalizing t with
  | zero => cases h
  | succ fuel ih =>
    rw [rounds] at h
    rcases pass_spec ht true (finRange c.cnt) with ⟨-, hno⟩ | ⟨t', b', hpass, round⟩
    · exact .inl hno
    · rw [hpass] at h
      cases b' with
      | false => exact ih round.settling h
      | true =>
        cases h
        exact .inr ⟨t', rfl, round.settling, fun i hi => nomatch (round.left i (mem_finRange i) hi).1⟩

/-- **The rounds end** where no switches wait for one another: the unresolved ones would, after a round
without progress. -/
theorem exists_rounds (hno : ∀ U, c.Waits U → ∀ i, ¬U i)
    (hread : c.Readable) (ht : Settling place t) {fuel : Nat}
    (hfuel : (Finset.univ.filter fun i => t i = none).card < fuel) : ∃ r, c.rounds fuel t = some r := by
  induction fuel generalizing t with
  | zero => omega
  | succ fuel ih =>
    rw [rounds]
    rcases pass_spec ht true (finRange c.cnt) with ⟨⟨why, h⟩, -⟩ | ⟨t', b', h, r⟩
    · exact ⟨_, by rw [h]⟩
    · rw [h]
      cases b' with
      | true => exact ⟨_, rfl⟩
      | false =>
        refine ih r.settling ((Finset.card_lt_card ?_).trans_le (Nat.le_of_lt_succ hfuel))
        rw [Finset.ssubset_iff_of_subset (Finset.monotone_filter_right _ fun i _ => r.kept i)]
        by_contra hsame
        simp only [Finset.mem_filter, Finset.mem_univ, true_and, not_exists, not_and, not_not] at hsame
        obtain ⟨i, hi⟩ := (r.unresolved rfl).resolve_left nofun
        exact hno (fun j => t j = none) ⟨hread, fun j hj => ⟨ht.above j hj, (r.left j (mem_finRange j) (hsame j hj)).2⟩,
          ht.valid⟩ i hi

theorem settling_leaf (hread : c.Readable) :
    Settling place c.leaf := by
  refine ⟨fun i hi => ?_, fun i hi hn => absurd (by simp [leaf, hn]) hi, fun U hw i hi => ?_, fun hfits i q hq => ?_⟩
  · cases hn : c.nodes i with
    | none => rfl
    | some text => exact absurd (by simpa [leaf, hn] using hi) (hread i text hn)
  · simp [leaf, (hw.blocks i hi).1]
  · rw [hfits i, hq]
    rfl

theorem refusal_eq_none : c.refusal i = none ↔ ∀ text, c.nodes i = some text → c.hostlistCreate text ≠ none := by
  have hdup : ¬∃ j < i, c.name j = c.name i := fun ⟨j, hj, hname⟩ => hj.ne (c.distinct j i hname)
  rw [refusal, if_neg hdup]
  split
  next text htext => simp [htext]
  next hnode _ => simp [hnode]
  next hnode hswitches => exact absurd hswitches (c.children i hnode).1

/-- Unless a leaf is unreadable, the rounds begin with the leaves. -/
theorem validateSwitches_eq (hread : c.Readable) (hcnt : c.cnt ≠ 0)
    (fuel : Nat) : c.validateSwitches fuel = (c.rounds fuel c.leaf).map fun r => r.bind fun t =>
      if ∃ i, (c.nodes i).isSome then .ok t else .error .noNodes := by
  rw [validateSwitches, if_neg hcnt, findSome?_eq_none_iff.2 fun i _ => refusal_eq_none.2 (hread i)]

theorem never_ends {U : Fin c.cnt → Prop} (hw : c.Waits U) {i : Fin c.cnt} (hi : U i) (fuel : Nat) :
    c.validateSwitches fuel = none := by
  rw [validateSwitches_eq hw.readable i.pos.ne']
  cases hr : c.rounds fuel c.leaf with
  | none => rfl
  | some r =>
    have ht : Settling (fun _ => default) c.leaf := settling_leaf hw.readable
    obtain hno | ⟨t', -, ht', hall⟩ := rounds_spec ht hr
    · exact absurd hw (hno U)
    · exact absurd (ht'.waiting U hw i hi) (hall i)

/-- **When reading the switches ends.** -/
theorem validate_switches_ends_iff (c : SwitchConf Name Text) :
    (∃ fuel r, c.validateSwitches fuel = some r) ↔ ¬∃ U, c.Waits U ∧ ∃ i, U i := by
  constructor
  · rintro ⟨fuel, r, hr⟩ ⟨U, hw, i, hi⟩
    exact nomatch hr.symm.trans (never_ends hw hi fuel)
  · intro hno
    by_cases hcnt : c.cnt = 0
    · exact ⟨0, _, if_pos hcnt⟩
    cases hrefuse : (finRange c.cnt).findSome? c.refusal with
    | some why => exact ⟨0, .error why, by rw [validateSwitches, if_neg hcnt, hrefuse]⟩
    | none =>
      have hread : c.Readable :=
        fun i => refusal_eq_none.1 (findSome?_eq_none_iff.1 hrefuse i (mem_finRange i))
      have ht : Settling (fun _ => default) c.leaf := settling_leaf hread
      obtain ⟨r, hr⟩ := exists_rounds (fun U hw i hi => hno ⟨U, hw, i, hi⟩) hread ht (Nat.lt_succ_self _)
      exact ⟨_, _, (validateSwitches_eq hread hcnt _).trans (congrArg _ hr)⟩

/-- Two switches, each the other's child. -/
def circle : SwitchConf Nat (List Nat) where
  ptrArray := [⟨0, none, some [1]⟩, ⟨1, none, some [0]⟩]
  hostlistCreate := some
  findNodeRecord := some
  distinct := by decide
  children := by decide

theorem circle_never_ends : ¬∃ fuel r, circle.validateSwitches fuel = some r := by
  have hw : circle.Waits fun _ => True := by
    refine ⟨fun _ _ _ => nofun, ?_, fun _ h => absurd trivial h⟩
    show ∀ i : Fin 2, _
    rw [Fin.forall_fin_two]
    exact ⟨fun _ => ⟨rfl, _, rfl, (1 : Fin 2), rfl, .inl trivial⟩, fun _ => ⟨rfl, _, rfl, (0 : Fin 2), rfl, .inl trivial⟩⟩
  rintro ⟨fuel, r, hr⟩
  exact nomatch hr.symm.trans (never_ends hw (i := (0 : Fin 2)) trivial fuel)

end SwitchConf

/-- The children of the switches are valid, and no switch is below itself. -/
structure TreeConf (Name Text : Type) [DecidableEq Name] extends SwitchConf Name Text where
  readable : toConf.Readable
  valid : ∀ i, toConf.nodes i = none → toConf.Valid i
  acyclic : Acyclic fun i j => j ∈ toConf.kids i

namespace TreeConf

open Conf SwitchConf

variable (c : TreeConf Name Text)

theorem exists_fits : ∃ place, c.Fits place := by
  apply c.acyclic.exists_eq
  intro i f g hsame
  have hlevel := Finset.sup_congr rfl fun j hj => congrArg Place.level (hsame j hj)
  have hnodes := Finset.sup_congr rfl fun j hj => congrArg Place.nodes (hsame j hj)
  rw [hlevel, hnodes]

/-- Of the switches of a tree one has no unresolved child. -/
theorem none_waits (U : Fin c.cnt → Prop) (hw : c.Waits U) (i : Fin c.cnt) : ¬U i := by
  intro hi
  obtain ⟨j, hj, hlast⟩ := c.acyclic.wellFounded.has_min {i | U i} ⟨i, hi⟩
  obtain ⟨-, ps, hps, hblocks⟩ := hw.blocks j hj
  obtain ⟨k, hk, hU⟩ := hblocks.exists_mem
  exact hlast k hU (by rwa [flip, kids, hps])

/-- **The rounds end**, with every switch in its place. -/
theorem rounds_eq {place : Fin c.cnt → Place} (hfits : c.Fits place) :
    c.rounds (c.cnt + 1) c.leaf = some (.ok fun i => some (place i)) := by
  have ht : Settling place c.leaf := settling_leaf c.readable
  have hcard : (Finset.univ.filter fun i => c.leaf i = none).card < c.cnt + 1 :=
    Nat.lt_succ_of_le ((Finset.card_filter_le _ _).trans (Finset.card_fin _).le)
  obtain ⟨r, hr⟩ := exists_rounds c.none_waits c.readable ht hcard
  have hw : c.Waits fun _ => False := ⟨c.readable, nofun, fun i _ => c.valid i⟩
  obtain ⟨t', rfl, ht', hall⟩ := (rounds_spec ht hr).resolve_left fun hno => hno _ hw
  suffices h : t' = fun i => some (place i) by rw [hr, h]
  funext i
  obtain ⟨q, hq⟩ := Option.ne_none_iff_exists'.1 (hall i)
  rw [hq, ht'.right hfits i q hq]

theorem exists_leaf (hcnt : c.cnt ≠ 0) : ∃ i, (c.nodes i).isSome := by
  obtain ⟨i, -, hlast⟩ := c.acyclic.wellFounded.has_min Set.univ ⟨⟨0, Nat.pos_of_ne_zero hcnt⟩, trivial⟩
  refine ⟨i, Option.isSome_iff_ne_none.2 fun hnode => ?_⟩
  obtain ⟨ps, hps, hvalid⟩ := c.valid i hnode
  obtain ⟨x, hx⟩ := exists_mem_of_ne_nil ps fun hnil => (c.children i hnode).2 (hnil ▸ hps)
  obtain ⟨j, hj⟩ := Option.ne_none_iff_exists'.1 (hvalid x hx)
  exact hlast j trivial (by simpa [flip, kids, hps, among] using ⟨x, hx, hj⟩)

end TreeConf

end Slurmpp.Topology
