/-
  The search for a host name (`hostlist_find`, `hostset_find`, `hostlist_nth` in `src/common/hostlist.c`).

  A range whose prefix itself ends in digits (`nid0000[2-7]`) needs another split of the name sought, so
  `hostrange_hn_within` moves digits to the prefix — IN PLACE, and the ranges tried afterwards see the new split.

  `Cut name p hn` says that `hn` is the name, split at `p`; every range tried keeps this, with a larger `p` at most
  (`hnWithin_cut`).  `Undisturbed` says that no range before one that holds the name has moved the split too far.
  Then the answer is the position of the first occurrence (`findLoop_located`).
-/
import Slurmpp.Hostlist.Range

namespace Slurmpp.Hostlist

open Text List

/-! ## Names and numbers -/

/-- `strtoul` of a run of digits: it stops at the largest value. -/
def strtoul (ds : Text) : Nat := min (value ds) ulongMax

/-- `struct hostname_components`. -/
structure Hostname where
  hostname : Text
  pfx : Text
  num : Nat
  suffix : Option Text
deriving DecidableEq

/-- `host_prefix_end`, one further: the number of characters before the digits at the end. -/
def hostPrefixEnd (hostname : Text) : Nat := (hostname.rdropWhile Char.isDigit).length

/-- `hostname_create`; `strtoul` always reads to the end, since the suffix is all digits. -/
def hostnameCreate (hostname : Text) : Hostname :=
  let idx := hostPrefixEnd hostname
  if idx = hostname.length then ⟨hostname, hostname, 0, none⟩
  else ⟨hostname, hostname.take idx, strtoul (hostname.drop idx), some (hostname.drop idx)⟩

def endsInDigit (s : Text) : Bool := s.getLast?.any Char.isDigit

/-- An `unsigned long` stored in an `int` and taken back as `unsigned long`. -/
def viaInt (n : Nat) : Nat :=
  if n % 2 ^ 32 < 2 ^ 31 then n % 2 ^ 32 else n % 2 ^ 32 + (2 ^ 64 - 2 ^ 32)

/-- The end of `hostrange_hn_within`: the number lies in the range and the widths agree.  The width of
    the range may be set to that of the name. -/
def numWithin (hr : Hostrange) (hn : Hostname) (suffix : Text) : Bool × Hostrange :=
  if hn.num ≤ hr.hi ∧ hr.lo ≤ hn.num then
    match widthEquiv hr.lo hr.width (viaInt hn.num) suffix.length with
    | some w => (true, { hr with width := w })
    | none => (false, hr)
  else (false, hr)

/-- `hostrange_hn_within`: the answer, and the range and the name as they are left. -/
def hnWithin (hr : Hostrange) (hn : Hostname) : Bool × Hostrange × Hostname :=
  if hr.singlehost then (decide (hn.hostname = hr.pfx), hr, hn)
  else
    match hn.suffix with
    | none => (false, hr, hn)
    | some suffix =>
      if hr.pfx = hn.pfx then
        ((numWithin hr hn suffix).1, (numWithin hr hn suffix).2, hn)
      else
        let ldiff := hr.pfx.length - hn.pfx.length
        if 0 < ldiff ∧ endsInDigit hr.pfx = true ∧ ldiff ≤ suffix.length then
          -- digits of the suffix are tacked on to the prefix, for good
          let hn' : Hostname := ⟨hn.hostname, hn.pfx ++ suffix.take ldiff, strtoul (suffix.drop ldiff),
            some (suffix.drop ldiff)⟩
          if hr.pfx = hn'.pfx then
            ((numWithin hr hn' (suffix.drop ldiff)).1, (numWithin hr hn' (suffix.drop ldiff)).2, hn')
          else (false, hr, hn')
        else (false, hr, hn)

/-- The loop of `hostlist_find` from a range on, with `count` hosts before it; both are `int`s.  The
    answer, and the ranges as they are left. -/
def findLoop : List Hostrange → Hostname → Int → Int × List Hostrange
  | [], _, _ => (-1, [])
  | hr :: rest, hn, count =>
    let r := hnWithin hr hn
    if r.1 then
      (if r.2.2.suffix.isSome then (count + r.2.2.num - r.2.1.lo).bmod (2 ^ 32) else count, r.2.1 :: rest)
    else
      let r' := findLoop rest r.2.2 ((count + r.2.1.count).bmod (2 ^ 32))
      (r'.1, r.2.1 :: r'.2)

def hostlistFind (hl : List Hostrange) (hostname : Text) : Int × List Hostrange :=
  findLoop hl (hostnameCreate hostname) 0

structure Hostset where
  hl : List Hostrange

def hostsetFind (set : Hostset) (hostname : Text) : Int × List Hostrange :=
  hostlistFind set.hl hostname

def nthLoop : List Hostrange → Nat → Nat → Option Text
  | [], _, _ => none
  | hr :: rest, n, count =>
    if n + 1 ≤ hr.count + count then hostrangeString hr (n - count)
    else nthLoop rest n (count + hr.count)

def hostlistNth (hl : List Hostrange) (n : Nat) : Option Text := nthLoop hl n 0

/-! ## Where a name is -/

variable {hr hr' : Hostrange} {l rest : List Hostrange} {hn : Hostname} {name ds : Text} {count k p : Nat}

theorem bmod_of_lt {x : Nat} (h : x < 2 ^ 31) : (x : Int).bmod (2 ^ 32) = x := by
  apply Int.bmod_eq_of_le <;> omega

/-- The right answer of a search, with `count` hosts before the list. -/
def Located (l : List Hostrange) (name : Text) (count : Nat) (r : Int × List Hostrange) : Prop :=
  names r.2 = names l ∧ r.1 = if name ∈ names l then ((count + (names l).idxOf name : Nat) : Int) else -1

theorem Located.skip {r : Int × List Hostrange} (hnames : hr'.names = hr.names) (hnot : name ∉ hr.names)
    (h : Located rest name (count + hr.count) r) : Located (hr :: rest) name count (r.1, hr' :: r.2) := by
  constructor
  · rw [names_cons, names_cons, hnames, h.1]
  · show r.1 = _
    rw [names_cons, h.2, idxOf_append_of_notMem hnot, Hostrange.length_names, Nat.add_assoc]
    simp [hnot]

theorem Located.hit (hnames : hr'.names = hr.names) (hnodup : hr.names.Nodup)
    (h : hr.names[k]? = some name) : Located (hr :: rest) name count ((count + k : Nat), hr' :: rest) := by
  obtain ⟨hk, hname⟩ := List.getElem?_eq_some_iff.1 h
  have hmem : name ∈ hr.names := List.mem_of_getElem? h
  have hidx : hr.names.idxOf name = k := by
    rw [← hname]
    exact hnodup.idxOf_getElem k hk
  constructor
  · rw [names_cons, names_cons, hnames]
  · show ((count + k : Nat) : Int) = _
    rw [names_cons, if_pos (mem_append_left _ hmem), idxOf_append_of_mem hmem, hidx]

theorem nodup_names : hr.names.Nodup := by
  rw [Hostrange.names]
  split_ifs
  · exact nodup_singleton _
  · exact List.Nodup.map hr.nameOf_injective nodup_range'

theorem nthLoop_eq {x : Text} (hx : (names l)[k]? = some x) (hfit : x.length + 1 < maxHostnameLen + 16) :
    nthLoop l (count + k) count = some x := by
  induction l generalizing count k with
  | nil => cases hx
  | cons hr rest ih =>
    rw [names_cons] at hx
    rw [nthLoop]
    by_cases hk : k < hr.count
    · rw [if_pos (by omega), Nat.add_sub_cancel_left]
      rw [getElem?_append_left (by rwa [Hostrange.length_names])] at hx
      exact hostrangeString_eq hx hfit
    · rw [getElem?_append_right (by rw [Hostrange.length_names]; omega), Hostrange.length_names] at hx
      have hcount : count + k = (count + hr.count) + (k - hr.count) := by omega
      rw [if_neg (by omega), hcount]
      exact ih hx

/-! ## Splits -/

theorem viaInt_of_lt {n : Nat} (h : n < 2 ^ 31) : viaInt n = n := by
  rw [viaInt, Nat.mod_eq_of_lt (by omega), if_pos h]

theorem hostPrefixEnd_le : hostPrefixEnd name ≤ name.length :=
  (List.rdropWhile_prefix _ _).length_le

theorem isDigit_of_mem_drop (hp : hostPrefixEnd name ≤ p) {c : Char} (h : c ∈ name.drop p) : c.isDigit = true := by
  have hdrop : name.drop (hostPrefixEnd name) = name.rtakeWhile Char.isDigit := by
    have hcat := rdropWhile_append_rtakeWhile (p := Char.isDigit) (l := name)
    have hleft := @List.drop_left _ (name.rdropWhile Char.isDigit) (name.rtakeWhile Char.isDigit)
    rwa [hcat] at hleft
  refine mem_rtakeWhile_imp (l := name) ?_
  rw [← hdrop]
  exact (drop_sublist_drop_left name hp).subset h

theorem hostPrefixEnd_append_le (s : Text) (hds : ∀ c ∈ ds, c.isDigit = true) :
    hostPrefixEnd (s ++ ds) ≤ s.length := by
  induction ds using reverseRecOn with
  | nil =>
    rw [append_nil]
    exact hostPrefixEnd_le
  | append_singleton xs c ih =>
    have hc : c.isDigit = true := hds c (by simp)
    rw [← append_assoc, hostPrefixEnd, rdropWhile_concat_pos _ _ _ hc]
    exact ih fun c hc => hds c (by simp [hc])

theorem hostPrefixEnd_le_of_mem (hs : hr.singlehost = false) (h : name ∈ hr.names) :
    hostPrefixEnd name ≤ hr.pfx.length ∧ hr.pfx.length < name.length := by
  obtain ⟨n, -, -, rfl⟩ := (Hostrange.mem_names_iff hs).1 h
  have hpos := length_pos_iff.2 (padded_ne_nil hr.width n)
  refine ⟨hostPrefixEnd_append_le _ fun c => isDigit_of_mem_padded, ?_⟩
  rw [Hostrange.nameOf, length_append]
  omega

/-- A name with digits at its end, split at `p`. -/
structure Cut (name : Text) (p : Nat) (hn : Hostname) : Prop where
  hostname : hn.hostname = name
  pfx : hn.pfx = name.take p
  suffix : hn.suffix = some (name.drop p)
  num : hn.num = strtoul (name.drop p)
  base : hostPrefixEnd name ≤ p
  le : p ≤ name.length

/-- The right answer of one range: whether it has the name, and with which number.  The range may have
    changed its width, but stands for the same names. -/
structure Tested (hr : Hostrange) (name : Text) (answer : Bool) (hr' : Hostrange) (num : Nat) : Prop where
  names : hr'.names = hr.names
  count : hr'.count = hr.count
  iff : answer = true ↔ name ∈ hr.names
  hit : answer = true → hr'.lo ≤ num ∧ hr.names[num - hr'.lo]? = some name

theorem tested_false {num : Nat} (h : name ∉ hr.names) : Tested hr name false hr num :=
  ⟨rfl, rfl, iff_of_false Bool.false_ne_true h, fun h => absurd h Bool.false_ne_true⟩

section

variable (hs : hr.singlehost = false)
include hs

theorem pfx_not_mem : hr.pfx ∉ hr.names := by
  intro h
  obtain ⟨n, -, -, hname⟩ := (Hostrange.mem_names_iff hs).1 h
  exact padded_ne_nil hr.width n (append_right_eq_self.1 hname.symm)

theorem numWithin_nil (hnum : hn.num = 0) (h : 0 < hr.lo ∨ 1 < hr.width) :
    Tested hr hr.pfx (numWithin hr hn []).1 (numWithin hr hn []).2 hn.num := by
  have hanswer : numWithin hr hn [] = (false, hr) := by
    rw [numWithin, hnum]
    split_ifs with hin
    · have hlo : hr.lo = 0 := Nat.le_zero.1 hin.2
      have hwide : widthEquiv 0 hr.width 0 0 = none := by
        have hzero : (ofNat 0).length = 1 := rfl
        simp only [widthEquiv, zeroPadded_eq, hzero]
        rw [if_neg (by omega), if_pos (by omega)]
      rw [hlo, viaInt_of_lt (by decide), length_nil, hwide]
    · rfl
  rw [hanswer]
  exact tested_false (pfx_not_mem hs)

theorem numWithin_tested (hmax : hr.hi < 2 ^ 31)
    (hds : ∀ c ∈ ds, c.isDigit = true) (hne : ds ≠ []) (hnum : hn.num = strtoul ds) :
    Tested hr (hr.pfx ++ ds) (numWithin hr hn ds).1 (numWithin hr hn ds).2 hn.num := by
  have hvalue := padded_value hds hne
  by_cases hin : hn.num ≤ hr.hi ∧ hr.lo ≤ hn.num
  · -- the number is small, so nothing was cut off
    have hsmall : hn.num < 2 ^ 31 := hin.1.trans_lt hmax
    have hnum' : hn.num = value ds := by
      rw [strtoul, ulongMax] at hnum
      omega
    rw [← hnum'] at hvalue
    rw [numWithin, if_pos hin, viaInt_of_lt hsmall]
    cases hw : widthEquiv hr.lo hr.width hn.num ds.length with
    | some w =>
      obtain ⟨h1, h2⟩ := widthEquiv_eq_some hw
      have hname : hr.pfx ++ ds = hr.nameOf hn.num := by
        rw [Hostrange.nameOf, ← h1 _ hin.2, h2 _ le_rfl, hvalue]
      have hget : hr.names[hn.num - hr.lo]? = some (hr.pfx ++ ds) := by
        have hlt : hn.num - hr.lo < hr.count := by
          rw [Hostrange.count, hs, if_neg Bool.false_ne_true]
          omega
        rw [Hostrange.getElem?_names hs hlt, hname, Nat.add_sub_cancel' hin.2]
      exact ⟨Hostrange.names_setWidth h1, rfl, iff_of_true rfl (List.mem_of_getElem? hget), fun _ => ⟨hin.2, hget⟩⟩
    | none =>
      refine tested_false ?_
      intro hmem
      obtain ⟨n, -, -, hname⟩ := (Hostrange.mem_names_iff hs).1 hmem
      have hds' : ds = padded hr.width n := append_cancel_left hname
      have hn' : hn.num = n := by rw [hnum', hds', value_padded]
      rw [← hn', ← hvalue] at hds'
      exact widthEquiv_eq_none hw hds'.symm
  · rw [numWithin, if_neg hin]
    refine tested_false ?_
    intro hmem
    obtain ⟨n, h1, h2, hname⟩ := (Hostrange.mem_names_iff hs).1 hmem
    have hds' : ds = padded hr.width n := append_cancel_left hname
    rw [strtoul, hds', value_padded, ulongMax] at hnum
    omega

/-- A range that makes the search move digits from the suffix of the name to its prefix. -/
def tries (hr : Hostrange) (name : Text) : Bool :=
  !hr.singlehost && endsInDigit hr.pfx && decide (hostPrefixEnd name < hr.pfx.length) &&
    decide (hr.pfx.length ≤ name.length)

omit hs in
theorem Cut.length_pfx (h : Cut name p hn) : hn.pfx.length = p := by
  rw [h.pfx, length_take, Nat.min_eq_left h.le]

theorem take_of_mem (h : name ∈ hr.names) : name.take hr.pfx.length = hr.pfx := by
  obtain ⟨n, -, -, rfl⟩ := (Hostrange.mem_names_iff hs).1 h
  exact take_left

theorem endsInDigit_of_mem (h : name ∈ hr.names) (hp : hostPrefixEnd name ≤ p)
    (hlt : p < hr.pfx.length) : endsInDigit hr.pfx = true := by
  obtain ⟨-, hlen⟩ := hostPrefixEnd_le_of_mem hs h
  obtain ⟨c, hc⟩ : ∃ c, hr.pfx.getLast? = some c := by
    rw [← Option.isSome_iff_exists, getLast?_isSome, ← length_pos_iff]
    omega
  rw [endsInDigit, hc, Option.any_some]
  apply isDigit_of_mem_drop hp
  -- the last character of the prefix stands behind the split
  rw [getLast?_eq_getElem?, ← take_of_mem hs h, length_take, Nat.min_eq_left hlen.le,
    getElem?_take_of_lt (by omega)] at hc
  have hpos : hr.pfx.length - 1 = p + (hr.pfx.length - 1 - p) := by omega
  rw [hpos, ← getElem?_drop] at hc
  exact List.mem_of_getElem? hc

theorem Cut.tested (hmax : hr.hi < 2 ^ 31)
    (hwhole : hr.pfx = name → 0 < hr.lo ∨ 1 < hr.width) (h : Cut name p hn) (hpfx : hr.pfx = hn.pfx) :
    Tested hr name (numWithin hr hn (name.drop p)).1 (numWithin hr hn (name.drop p)).2 hn.num := by
  have hcat : hr.pfx ++ name.drop p = name := by rw [hpfx, h.pfx, take_append_drop]
  by_cases hnil : name.drop p = []
  · rw [hnil, append_nil] at hcat
    have hnum : hn.num = 0 := by rw [h.num, hnil]; rfl
    rw [hnil, ← hcat]
    exact numWithin_nil hs hnum (hwhole hcat)
  · have htested := numWithin_tested hs hmax (fun c hc => isDigit_of_mem_drop h.base hc) hnil h.num
    rwa [hcat] at htested

/-- **One range tried**: the split stays one of the name and moves forward at most to the end of the
    range's prefix, and the answer is right if it was not beyond that before. -/
theorem hnWithin_cut (hmax : hr.hi < 2 ^ 31) (hwhole : hr.pfx = name → 0 < hr.lo ∨ 1 < hr.width) (hcut : Cut name p hn)
    (hp : name ∈ hr.names → p ≤ hr.pfx.length) :
    ∃ p', Cut name p' (hnWithin hr hn).2.2 ∧ (p' = p ∨ p' = hr.pfx.length ∧ tries hr name = true) ∧
      Tested hr name (hnWithin hr hn).1 (hnWithin hr hn).2.1 (hnWithin hr hn).2.2.num := by
  rw [hnWithin, hs, if_neg Bool.false_ne_true, hcut.suffix]
  by_cases hpfx : hr.pfx = hn.pfx
  · simp only [if_pos hpfx]
    exact ⟨p, hcut, .inl rfl, hcut.tested hs hmax hwhole hpfx⟩
  · simp only [if_neg hpfx, hcut.length_pfx, length_drop]
    split
    next htry =>
      obtain ⟨h1, h2, h3⟩ := htry
      have hle := hcut.le
      have hbase := hcut.base
      have hlen : p + (hr.pfx.length - p) = hr.pfx.length := by omega
      have htries : tries hr name = true := by
        rw [tries, hs, h2]
        simp only [Bool.not_false, Bool.true_and, Bool.and_eq_true, decide_eq_true_eq]
        omega
      have hq : Cut name hr.pfx.length ⟨hn.hostname, hn.pfx ++ (name.drop p).take (hr.pfx.length - p),
          strtoul (name.drop hr.pfx.length), some (name.drop hr.pfx.length)⟩ := by
        refine ⟨hcut.hostname, ?_, rfl, rfl, by omega, by omega⟩
        show hn.pfx ++ _ = _
        rw [hcut.pfx, ← take_add, hlen]
      rw [drop_drop, hlen]
      split
      next hsame =>
        exact ⟨_, hq, .inr ⟨rfl, htries⟩, hq.tested hs hmax hwhole hsame⟩
      next hsame =>
        refine ⟨_, hq, .inr ⟨rfl, htries⟩, tested_false ?_⟩
        intro hmem
        apply hsame
        rw [hcut.pfx, ← take_add, hlen, take_of_mem hs hmem]
    next htry =>
      refine ⟨p, hcut, .inl rfl, tested_false ?_⟩
      intro hmem
      obtain ⟨-, hlen⟩ := hostPrefixEnd_le_of_mem hs hmem
      have hlt : p < hr.pfx.length := by
        refine (hp hmem).lt_of_ne ?_
        rintro rfl
        exact hpfx (by rw [hcut.pfx, take_of_mem hs hmem])
      exact htry ⟨by omega, endsInDigit_of_mem hs hmem hcut.base hlt, by omega⟩

end

/-! ## The search -/

/-- Nothing that is tried before a range with the name has moved the split beyond that range's prefix;
    and where the name is itself the prefix of a range, no number of that range is written `0`. -/
structure Undisturbed (l : List Hostrange) (name : Text) : Prop where
  order : l.Pairwise fun hr hr' =>
    tries hr name = true → name ∈ hr'.names → hr.pfx.length ≤ hr'.pfx.length
  whole : ∀ hr ∈ l, hr.singlehost = false → hr.pfx = name → 0 < hr.lo ∨ 1 < hr.width

/-- The lists searched: well-formed ranges, numbers and the number of hosts within an `int`. -/
structure Searchable (l : List Hostrange) (count : Nat) : Prop where
  ok : ∀ hr ∈ l, hr.Ok
  max : ∀ hr ∈ l, hr.hi < 2 ^ 31
  total : count + (names l).length < 2 ^ 31

theorem Searchable.tail (h : Searchable (hr :: rest) count) : Searchable rest (count + hr.count) := by
  refine ⟨(forall_mem_cons.1 h.ok).2, (forall_mem_cons.1 h.max).2, ?_⟩
  have htotal := h.total
  rw [names_cons, length_append, Hostrange.length_names] at htotal
  omega

theorem Searchable.count_add (h : Searchable (hr :: rest) count) :
    ((count : Int) + (hr.count : Nat)).bmod (2 ^ 32) = (count + hr.count : Nat) := by
  have htotal := h.tail.total
  rw [← Int.natCast_add]
  exact bmod_of_lt (by omega)

theorem Undisturbed.tail (h : Undisturbed (hr :: rest) name) : Undisturbed rest name :=
  ⟨(pairwise_cons.1 h.order).2, (forall_mem_cons.1 h.whole).2⟩

theorem endsInDigit_of_lt (h : hostPrefixEnd name < name.length) :
    ∃ c, name.getLast? = some c ∧ c.isDigit = true := by
  have hne : name ≠ [] := by
    rintro rfl
    exact absurd h (Nat.not_lt_zero _)
  refine ⟨name.getLast hne, getLast?_eq_some_getLast hne, ?_⟩
  by_contra hc
  have hself : name.rdropWhile Char.isDigit = name := rdropWhile_eq_self_iff.2 fun _ => hc
  rw [hostPrefixEnd, hself] at h
  exact Nat.lt_irrefl _ h

theorem findLoop_cut (hl : Searchable l count) (hclear : Undisturbed l name) (hcut : Cut name p hn)
    (hnum : hostPrefixEnd name < name.length) (hp : ∀ hr ∈ l, name ∈ hr.names → p ≤ hr.pfx.length) :
    Located l name count (findLoop l hn count) := by
  induction l generalizing hn count p with
  | nil => exact ⟨rfl, rfl⟩
  | cons hr rest ih =>
    have htotal := hl.tail.total
    have hcount := hl.count_add
    rw [findLoop]
    by_cases hs : hr.singlehost = true
    · -- a single host does not end in a digit
      obtain ⟨c, hc, hdigit⟩ := endsInDigit_of_lt hnum
      have hnot : name ≠ hr.pfx := by
        rintro rfl
        have := ((hl.ok hr mem_cons_self).single hs).2.2 c hc
        rw [hdigit] at this
        cases this
      have hwithin : hnWithin hr hn = (false, hr, hn) := by
        rw [hnWithin, if_pos hs, hcut.hostname, decide_eq_false hnot]
      simp only [hwithin, Bool.false_eq_true, if_false, hcount]
      refine Located.skip rfl ?_ (ih hl.tail hclear.tail hcut (forall_mem_cons.1 hp).2)
      rw [Hostrange.names_single hs, mem_singleton]
      exact hnot
    · rw [Bool.not_eq_true] at hs
      obtain ⟨p', hcut', hp', htested⟩ := hnWithin_cut hs
        (hl.max hr mem_cons_self) (hclear.whole hr mem_cons_self hs) hcut
        (hp hr mem_cons_self)
      by_cases hfound : (hnWithin hr hn).1 = true
      · obtain ⟨hle, hget⟩ := htested.hit hfound
        have hk := (List.getElem?_eq_some_iff.1 hget).1
        rw [Hostrange.length_names] at hk
        have hret : ((count : Int) + ((hnWithin hr hn).2.2.num : Nat) -
            ((hnWithin hr hn).2.1.lo : Nat)).bmod (2 ^ 32) =
            (count + ((hnWithin hr hn).2.2.num - (hnWithin hr hn).2.1.lo) : Nat) := by
          have hcast : (count : Int) + ((hnWithin hr hn).2.2.num : Nat) - ((hnWithin hr hn).2.1.lo : Nat) =
              (count + ((hnWithin hr hn).2.2.num - (hnWithin hr hn).2.1.lo) : Nat) := by omega
          rw [hcast]
          exact bmod_of_lt (by omega)
        simp only [hfound, if_true, hcut'.suffix, Option.isSome_some]
        rw [hret]
        exact Located.hit htested.names nodup_names hget
      · have hnot : name ∉ hr.names := fun h => hfound (htested.iff.2 h)
        simp only [hfound, htested.count, hcount]
        refine Located.skip htested.names hnot (ih hl.tail hclear.tail hcut' ?_)
        intro r hr' hmem
        rcases hp' with rfl | ⟨rfl, htries⟩
        · exact hp r (mem_cons_of_mem _ hr') hmem
        · exact (pairwise_cons.1 hclear.order).1 r hr' htries hmem

theorem findLoop_plain (hl : Searchable l count) (hnum : hostPrefixEnd name = name.length) :
    Located l name count (findLoop l ⟨name, name, 0, none⟩ count) := by
  induction l generalizing count with
  | nil => exact ⟨rfl, rfl⟩
  | cons hr rest ih =>
    rw [findLoop]
    by_cases hhit : hr.singlehost = true ∧ name = hr.pfx
    · obtain ⟨hs, hname⟩ := hhit
      have hwithin : hnWithin hr ⟨name, name, 0, none⟩ = (true, hr, ⟨name, name, 0, none⟩) := by
        rw [hnWithin, if_pos hs, decide_eq_true hname]
      simp only [hwithin, if_true, Option.isSome_none, Bool.false_eq_true, if_false]
      refine Located.hit (k := 0) rfl nodup_names ?_
      rw [Hostrange.names_single hs, hname]
      rfl
    · have hwithin : hnWithin hr ⟨name, name, 0, none⟩ = (false, hr, ⟨name, name, 0, none⟩) := by
        rw [hnWithin]
        split
        next hs => rw [decide_eq_false fun hname => hhit ⟨hs, hname⟩]
        next => rfl
      simp only [hwithin, Bool.false_eq_true, if_false, hl.count_add]
      refine Located.skip rfl (fun hmem => ?_) (ih hl.tail)
      cases hs : hr.singlehost with
      | true =>
        rw [Hostrange.names_single hs, mem_singleton] at hmem
        exact hhit ⟨hs, hmem⟩
      | false =>
        have := hostPrefixEnd_le_of_mem hs hmem
        omega

theorem hostnameCreate_cut (h : hostPrefixEnd name < name.length) :
    Cut name (hostPrefixEnd name) (hostnameCreate name) := by
  rw [hostnameCreate]
  simp only [if_neg h.ne]
  exact ⟨rfl, rfl, rfl, rfl, le_rfl, h.le⟩

theorem hostlistFind_located (hl : Searchable l 0) (hclear : Undisturbed l name) :
    Located l name 0 (hostlistFind l name) := by
  rcases hostPrefixEnd_le.lt_or_eq with hnum | hnum
  · refine findLoop_cut hl hclear (hostnameCreate_cut hnum) hnum ?_
    intro hr hhr hmem
    by_cases hs : hr.singlehost = true
    · rw [Hostrange.names_single hs, mem_singleton] at hmem
      rw [← hmem]
      exact hnum.le
    · rw [Bool.not_eq_true] at hs
      exact (hostPrefixEnd_le_of_mem hs hmem).1
  · have hcreate : hostnameCreate name = ⟨name, name, 0, none⟩ := by
      rw [hostnameCreate]
      simp only [if_pos hnum]
    rw [hostlistFind, hcreate]
    exact findLoop_plain hl hnum

/-- What a search should answer: an index that is not negative exactly for the names of the list, then
    that of the first occurrence, at which the list has the name; and the list keeps its names. -/
structure Answers (l : List Hostrange) (name : Text) (r : Int × List Hostrange) : Prop where
  mem : 0 ≤ r.1 ↔ name ∈ names l
  first : name ∈ names l → r.1 = (names l).idxOf name ∧ hostlistNth r.2 ((names l).idxOf name) = some name
  same : names r.2 = names l

theorem Located.answers {r : Int × List Hostrange} (h : Located l name 0 r) (hfit : Fits l) : Answers l name r := by
  obtain ⟨hsame, hidx⟩ := h
  refine ⟨?_, ?_, hsame⟩
  · rw [hidx]
    split_ifs with hmem
    · exact iff_of_true (Int.natCast_nonneg _) hmem
    · exact iff_of_false (by decide) hmem
  · intro hmem
    refine ⟨?_, ?_⟩
    · rw [hidx, if_pos hmem, Nat.zero_add]
    · have hget : (names r.2)[(names l).idxOf name]? = some name := by
        rw [hsame]
        exact getElem?_idxOf hmem
      rw [hostlistNth, ← Nat.zero_add ((names l).idxOf name)]
      exact nthLoop_eq hget (hfit name hmem)

/-- The list `nid000[8-9],nid0001[0-2]`. -/
def nids : List Hostrange :=
  [.create "nid000".toList 8 9 1, .create "nid0001".toList 0 2 1]

end Slurmpp.Hostlist
