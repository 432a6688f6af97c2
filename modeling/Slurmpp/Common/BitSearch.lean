/-
  Searches in bit strings (`src/common/bitstring.c`).

  1. **Single bits** — `bit_ffs`, `bit_ffc` and `bit_fls` skip a word when it equals a constant.  A skipped word
     must hold no wanted bit (`findFirst_eq`).  For `bit_ffc` the constant is `BITSTR_MAXPOS`, the number 31 and
     not a word of ones: a word whose bits 0 to 4 are set is passed over.
  2. **Runs** — `bit_nffc`, `bit_nffs` and `bit_noc` are `runSearch` with different bounds.  `bit_nffs` stops at
     the last position at which a run could START.  `bit_noc` looks from `seed` on, and then from the beginning up
     to a set bit from `seed` on: a run behind that would have been found before.
-/
import Slurmpp.Lib.Search
import Slurmpp.Common.Bitstring

namespace Slurmpp.Bitstring

variable {b : Bitstr} {want : Bool} {skip : BitVec 32} {n k m seed : Nat}

/-! ## The first bit -/

/-- The common body of `bit_ffs` and `bit_ffc` at position `bit`, with `n` words to go.  The inner loop
    looks at the valid positions of the word from `bit` on. -/
def findFirst (skip : BitVec 32) (want : Bool) (b : Bitstr) : Nat → Nat → Option Int
  | 0, _ => some (-1)
  | n + 1, bit =>
    if bit < b.bits then
      if word b bit = skip then
        if bit + 32 < 2 ^ 31 then findFirst skip want b n (bit + 32) else none
      else
        let next := min b.bits (32 * (bit / 32 + 1))
        match searchUp (fun i => bitTest b i == want) (next - bit) bit with
        | some value => some value
        | none => findFirst skip want b n next
    else some (-1)

def bitFfs (b : Bitstr) : Option Int := findFirst 0 true b b.words.length 0

/-- `BITSTR_MAXPOS` -/
def maxpos : BitVec 32 := 31

def bitFfc (b : Bitstr) : Option Int := findFirst maxpos false b b.words.length 0

theorem findFirst_of_le {bit : Nat} (h : b.bits ≤ bit) : findFirst skip want b n bit = some (-1) := by
  cases n with
  | zero => rfl
  | succ n => rw [findFirst, if_neg (by omega)]

section

variable (hsize : b.bits ≤ 2 ^ 31 - 32)
include hsize

/-- **The first wanted bit is found** if no skipped word holds it.  `k` words without a wanted bit
    have been passed. -/
theorem findFirst_eq (hn : k + n = b.words.length)
    (hskip : ∀ i < b.bits, bitTest b i = want → word b i = skip →
      ∃ j < 32 * (i / 32), bitTest b j = want) (hpast : ∀ i < 32 * k, bitTest b i ≠ want) :
    ∃ v, findFirst skip want b n (32 * k) = some v ∧ First b.bits (fun i => bitTest b i = want) v := by
  have hlen := b.length_words
  rw [dataWords] at hlen
  induction n generalizing k with
  | zero => exact ⟨-1, rfl, .inl ⟨rfl, fun i hi => hpast i (by omega)⟩⟩
  | succ n ih =>
    have hk : 32 * k < b.bits := by omega
    -- the next word is reached when this one holds no wanted bit
    have hnext : (∀ i < b.bits, i / 32 = k → bitTest b i ≠ want) →
        ∃ v, findFirst skip want b n (min b.bits (32 * (k + 1))) = some v ∧
          First b.bits (fun i => bitTest b i = want) v := by
      intro hnone
      have hpast' : ∀ i < b.bits, i < 32 * (k + 1) → bitTest b i ≠ want := by
        intro i hi hlt
        by_cases hik : i / 32 = k
        · exact hnone i hi hik
        · exact hpast i (by omega)
      rcases le_total (32 * (k + 1)) b.bits with hle | hle
      · rw [min_eq_right hle]
        exact ih (by omega) fun i hi => hpast' i (by omega) hi
      · rw [min_eq_left hle]
        refine ⟨-1, findFirst_of_le le_rfl, .inl ⟨rfl, fun i hi => hpast' i hi (by omega)⟩⟩
    rw [findFirst, if_pos hk]
    by_cases hw : word b (32 * k) = skip
    · have hnone : ∀ i < b.bits, i / 32 = k → bitTest b i ≠ want := by
        intro i hi hik hit
        obtain ⟨j, hj, hjt⟩ := hskip i hi hit ((word_congr (by omega)).trans hw)
        exact hpast j (by omega) hjt
      obtain ⟨v, hv, hfirst⟩ := hnext hnone
      refine ⟨v, ?_, hfirst⟩
      rw [if_pos hw, if_pos (by omega), ← hv]
      rcases le_total (32 * (k + 1)) b.bits with hle | hle
      · rw [min_eq_right hle]
        congr 1
      · rw [min_eq_left hle, findFirst_of_le le_rfl, findFirst_of_le (by omega)]
    · rw [if_neg hw]
      simp only [show 32 * k / 32 = k by omega]
      cases hs : searchUp (fun i => bitTest b i == want) (min b.bits (32 * (k + 1)) - 32 * k)
          (32 * k) with
      | none =>
        refine hnext fun i hi hik hit => ?_
        have := searchUp_eq_none hs (j := i) (by omega) (by omega)
        simp [hit] at this
      | some p =>
        obtain ⟨hle, hlt, hp, hleast⟩ := searchUp_eq_some hs
        refine ⟨p, rfl, .inr ⟨p, rfl, ⟨by omega, by simpa using hp⟩, fun j hj => ?_⟩⟩
        by_contra hjp
        by_cases hjk : j < 32 * k
        · exact hpast j hjk hj.2
        · have := hleast j (by omega) (by omega)
          simp [hj.2] at this

theorem bitFfs_eq : ∃ v, bitFfs b = some v ∧ First b.bits (fun i => bitTest b i = true) v := by
  refine findFirst_eq hsize (Nat.zero_add _) (fun i _ ht hw => ?_) (fun i hi => by omega)
  rw [bitTest_of_word hw] at ht
  cases ht

theorem bitFfc_eq (hword : ∀ p, IsLeast {i | i < b.bits ∧ bitTest b i = false} p → word b p ≠ maxpos) :
    ∃ v, bitFfc b = some v ∧ First b.bits (fun i => bitTest b i = false) v := by
  refine findFirst_eq hsize (Nat.zero_add _) (fun i hi ht hw => ?_) (fun i hi => by omega)
  -- the first clear bit is in an earlier word
  have hex : ∃ j, j < b.bits ∧ bitTest b j = false := ⟨i, hi, ht⟩
  have hleast : IsLeast {i | i < b.bits ∧ bitTest b i = false} (Nat.find hex) :=
    ⟨Nat.find_spec hex, fun j hj => Nat.find_le hj⟩
  have hle : Nat.find hex ≤ i := hleast.2 ⟨hi, ht⟩
  refine ⟨Nat.find hex, ?_, (Nat.find_spec hex).2⟩
  by_contra hcon
  have hsame : Nat.find hex / 32 = i / 32 := by omega
  exact hword _ hleast ((word_congr hsame).trans hw)

end

/-! ## The last bit -/

/-- The loop "test partitial words" at position `bit`, which is given as `bit + 1`: the bit found, or
    where the whole words end. -/
def flsPartial (b : Bitstr) : Nat → Nat ⊕ Nat
  | 0 => .inr 0
  | bit + 1 =>
    if bit / 32 = (bit + 1) / 32 then
      if bitTest b bit then .inl bit else flsPartial b bit
    else .inr (bit + 1)

/-- The loop "test whole words" below position `stop`. -/
def flsWhole (b : Bitstr) : Nat → Nat → Int
  | 0, _ => -1
  | n + 1, stop =>
    if stop = 0 then -1
    else if word b (stop - 1) = 0 then flsWhole b n (stop - 32)
    else orMinusOne (searchDown (bitTest b) 0 stop)

def bitFls (b : Bitstr) : Int :=
  if b.bits = 0 then -1
  else
    match flsPartial b b.bits with
    | .inl bit => bit
    | .inr stop => flsWhole b b.words.length stop

variable {stop bits : Nat}

theorem last_of_searchDown (hle : stop ≤ bits) (hclear : ∀ i < bits, stop ≤ i → bitTest b i = false) :
    Last bits (fun i => bitTest b i = true) (orMinusOne (searchDown (bitTest b) 0 stop)) := by
  cases hs : searchDown (bitTest b) 0 stop with
  | none =>
    refine .inl ⟨rfl, fun i hi => Bool.eq_false_iff.1 ?_⟩
    by_cases hlt : i < stop
    · exact searchDown_eq_none hs (Nat.zero_le i) (by omega)
    · exact hclear i hi (by omega)
  | some p =>
    obtain ⟨-, hlt, hp, hgreatest⟩ := searchDown_eq_some hs
    refine .inr ⟨p, rfl, ⟨by omega, hp⟩, fun j hj => ?_⟩
    by_contra hjp
    have hfalse : bitTest b j = false := by
      by_cases hlt : j < stop
      · exact hgreatest j (by omega) (by omega)
      · exact hclear j hj.1 (by omega)
    rw [hj.2] at hfalse
    cases hfalse

theorem last_flsWhole (hn : stop ≤ 32 * n) (hwhole : stop % 32 = 0)
    (hle : stop ≤ bits) (hclear : ∀ i < bits, stop ≤ i → bitTest b i = false) :
    Last bits (fun i => bitTest b i = true) (flsWhole b n stop) := by
  have hend : ∀ {stop}, stop = 0 → (∀ i < bits, stop ≤ i → bitTest b i = false) →
      Last bits (fun i => bitTest b i = true) (-1) := by
    intro stop h0 h
    exact .inl ⟨rfl, fun i hi => Bool.eq_false_iff.1 (h i hi (by omega))⟩
  induction n generalizing stop with
  | zero => exact hend (by omega) hclear
  | succ n ih =>
    rw [flsWhole]
    split_ifs with h0 hw
    · exact hend h0 hclear
    · refine ih (by omega) (by omega) (by omega) fun i hi hle => ?_
      by_cases hlt : stop ≤ i
      · exact hclear i hi hlt
      · exact bitTest_of_word ((word_congr (by omega)).trans hw)
    · exact last_of_searchDown hle hclear

theorem flsPartial_eq (hle : stop ≤ bits) (hclear : ∀ i < bits, stop ≤ i → bitTest b i = false) :
    (∃ p, flsPartial b stop = .inl p ∧ IsGreatest {i | i < bits ∧ bitTest b i = true} p) ∨
    ∃ e, flsPartial b stop = .inr e ∧ e % 32 = 0 ∧ e ≤ stop ∧ ∀ i < bits, e ≤ i → bitTest b i = false := by
  induction stop with
  | zero => exact .inr ⟨0, rfl, rfl, le_rfl, hclear⟩
  | succ bit ih =>
    rw [flsPartial]
    split_ifs with hsame ht
    · refine .inl ⟨bit, rfl, ⟨by omega, ht⟩, fun j hj => ?_⟩
      by_contra hjp
      have := hclear j hj.1 (by omega)
      rw [hj.2] at this
      cases this
    · have hbelow : ∀ i < bits, bit ≤ i → bitTest b i = false := by
        intro i hi hle
        rcases Nat.lt_or_eq_of_le hle with hlt | rfl
        · exact hclear i hi hlt
        · simpa using ht
      rcases ih (by omega) hbelow with h | ⟨e, he, hmod, hle, hc⟩
      · exact .inl h
      · exact .inr ⟨e, he, hmod, by omega, hc⟩
    · exact .inr ⟨bit + 1, rfl, by omega, le_rfl, hclear⟩

theorem bitFls_eq : Last b.bits (fun i => bitTest b i = true) (bitFls b) := by
  have hlen := b.length_words
  rw [dataWords] at hlen
  rw [bitFls]
  split_ifs with h0
  · exact .inl ⟨rfl, fun i hi => by omega⟩
  · rcases flsPartial_eq le_rfl (fun i hi hle => by omega) with
      ⟨p, hp, hgreatest⟩ | ⟨e, he, hmod, hle, hc⟩
    · rw [hp]
      exact .inr ⟨p, rfl, hgreatest⟩
    · rw [he]
      exact last_flsWhole (by omega) hmod hle hc

def fullThen : Bitstr := ⟨40, [0xffffffff, 0x5f], rfl, by decide⟩

def bitNffc (b : Bitstr) (n : Nat) : Option Int :=
  if 0 < n ∧ n < b.bits then
    some (orMinusOne (runSearch (fun i => !bitTest b i) (fun _ => false) n b.bits 0 0))
  else none

/-- `bit_nffs`: the loop ends with `bit <= _bitstr_bits(b) - n`. -/
def bitNffs (b : Bitstr) (n : Nat) : Option Int :=
  if 0 < n ∧ n ≤ b.bits then
    some (orMinusOne (runSearch (bitTest b) (fun _ => false) n (b.bits - n + 1) 0 0))
  else none

/-- `if ((seed + n) >= _bitstr_bits(b)) seed = _bitstr_bits(b)`.  The sum is an `int`; a sum of `2^31`
    or more is negative there. -/
def clipSeed (bits n seed : Nat) : Nat :=
  if seed + n < 2 ^ 31 ∧ bits ≤ seed + n then bits else seed

def bitNoc (b : Bitstr) (n seed : Nat) : Option Int :=
  if 0 < n ∧ n ≤ b.bits then
    let seed := clipSeed b.bits n seed
    match runSearch (fun i => !bitTest b i) (fun _ => false) n (b.bits - seed) seed 0 with
    | some value => some value
    | none =>
      some (orMinusOne (runSearch (fun i => !bitTest b i) (fun bit => decide (seed ≤ bit)) n b.bits 0 0))
  else none

/-- The starts of `n` clear or set bits in a row. -/
def RunOf (b : Bitstr) (want : Bool) (n s : Nat) : Prop :=
  s + n ≤ b.bits ∧ ∀ i, s ≤ i → i < s + n → bitTest b i = want

theorem runOf_false {s : Nat} : RunOf b false n s ↔ s + n ≤ b.bits ∧ RunAt (fun i => !bitTest b i) n s := by
  simp [RunOf, RunAt]

theorem bitNffc_eq (hn : 0 < n) (hlt : n < b.bits) :
    ∃ v, bitNffc b n = some v ∧ First b.bits (RunOf b false n) v := by
  refine ⟨_, if_pos ⟨hn, hlt⟩, ?_⟩
  have h := first_runSearch (fun i => !bitTest b i) b.bits hn
  simpa only [First, runOf_false] using h

theorem bitNffs_eq (hn : 0 < n) (hlt : n < b.bits)
    (hend : ∀ s, IsLeast {s | RunOf b true n s} s → s + 2 * n ≤ b.bits + 1) :
    ∃ v, bitNffs b n = some v ∧ First b.bits (RunOf b true n) v := by
  refine ⟨_, if_pos ⟨hn, hlt.le⟩, ?_⟩
  cases h : runSearch (bitTest b) (fun _ => false) n (b.bits - n + 1) 0 0 with
  | none =>
    refine .inl ⟨rfl, fun s _ hs => ?_⟩
    -- the first run would have been seen
    have hex : ∃ s, RunOf b true n s := ⟨s, hs⟩
    classical
    have hfind := Nat.find_spec hex
    have hearly := hend _ ⟨hfind, fun j hj => Nat.find_le hj⟩
    obtain ⟨q, _, _, _, hq⟩ := runSearch_eq_none le_rfl hn h (by omega)
      (by omega : Nat.find hex + n ≤ 0 + (b.bits - n + 1)) hfind.2
    cases hq
  | some s =>
    obtain ⟨-, hs, hrun, hleast⟩ := runSearch_eq_some le_rfl hn (fun i h1 h2 => by omega) h
    have hrunOf : RunOf b true n s := ⟨by omega, hrun⟩
    exact .inr ⟨s, rfl, ⟨by omega, hrunOf⟩, fun s' hs' => hleast s' (by omega) hs'.2.2⟩

theorem bitNoc_eq (hn : 0 < n) (hlt : n < b.bits) (hseed : seed < b.bits) :
    (bitNoc b n seed = some (-1) ∧ ∀ s, ¬RunOf b false n s) ∨
    ∃ s : Nat, bitNoc b n seed = some s ∧ RunOf b false n s ∧
      (seed + n < b.bits → (∃ s', seed ≤ s' ∧ RunOf b false n s') → seed ≤ s) := by
  -- the seed that is used: the given one, or the size when no run can start behind it
  obtain ⟨seed', hclip, hle, hkeep⟩ : ∃ seed', clipSeed b.bits n seed = seed' ∧ seed' ≤ b.bits ∧
      (seed + n < b.bits → seed' = seed) := by
    refine ⟨_, rfl, ?_, fun h => ?_⟩
    · rw [clipSeed]
      split_ifs <;> omega
    · rw [clipSeed, if_neg (by omega)]
  have hnoc : bitNoc b n seed =
      match runSearch (fun i => !bitTest b i) (fun _ => false) n (b.bits - seed') seed' 0 with
      | some value => some (value : Int)
      | none => some (orMinusOne
          (runSearch (fun i => !bitTest b i) (fun bit => decide (seed' ≤ bit)) n b.bits 0 0)) := by
    rw [bitNoc, if_pos ⟨hn, hlt.le⟩]
    simp only [hclip]
  rw [hnoc]
  cases h1 : runSearch (fun i => !bitTest b i) (fun _ => false) n (b.bits - seed') seed' 0 with
  | some s =>
    obtain ⟨hs, hend, hrun, -⟩ := runSearch_eq_some (Nat.zero_le _) hn (fun i h1 h2 => by omega) h1
    exact .inr ⟨s, rfl, runOf_false.2 ⟨by omega, hrun⟩, fun h _ => by have := hkeep h; omega⟩
  | none =>
    have hnone : ∀ s, seed' ≤ s → ¬RunOf b false n s := by
      intro s hs hrun
      rw [runOf_false] at hrun
      obtain ⟨q, _, _, _, hq⟩ := runSearch_eq_none (Nat.zero_le _) hn h1 (by omega) (by omega) hrun.2
      cases hq
    cases h2 : runSearch (fun i => !bitTest b i) (fun bit => decide (seed' ≤ bit)) n b.bits 0 0 with
    | none =>
      refine .inl ⟨rfl, fun s hrun => ?_⟩
      have hrun' := runOf_false.1 hrun
      obtain ⟨q, _, hqs, _, hq⟩ := runSearch_eq_none le_rfl hn h2 (by omega) (by omega) hrun'.2
      -- the search was given up behind the seed, and the run is still further behind
      exact hnone s (by have := of_decide_eq_true hq; omega) hrun
    | some s =>
      obtain ⟨-, hend, hrun, -⟩ := runSearch_eq_some le_rfl hn (fun i h1 h2 => by omega) h2
      refine .inr ⟨s, rfl, runOf_false.2 ⟨by omega, hrun⟩, fun h ⟨s', hs', hrun'⟩ => ?_⟩
      exact absurd hrun' (hnone s' (by have := hkeep h; omega))

/-- Eight bits, of which 1, 2, 3 and 6 are set. -/
def sparse : Bitstr := oneWord 8 0x4e

end Slurmpp.Bitstring
