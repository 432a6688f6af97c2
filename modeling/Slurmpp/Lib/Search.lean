/-
  Loops that look for a position.

  Three loops over natural numbers, each with the rule that says what it returns:

  1. `searchUp`   — the first of `n` positions from `i` on that a test accepts;
  2. `searchDown` — the last of the `n` positions from `lo` on, tested from the end;
  3. `runSearch`  — the first RUN of `n` accepted positions in a row.  The loop keeps the length `cnt` of
     the run that ends right before the current position, so what it may still return starts at
     `bit - cnt`; a refused position that `quit` accepts ends the search.

  `First n p v` and `Last n p v` say what a search that answers `-1` for "none" has to return.
-/
import Mathlib

namespace Slurmpp

variable {p good quit : Nat → Bool} {n k i j v lo bit cnt s : Nat}

/-! ## What a search returns -/

/-- `v` is the least number below `n` with `P`, or `-1` when there is none. -/
def First (n : Nat) (P : Nat → Prop) (v : Int) : Prop :=
  (v = -1 ∧ ∀ i < n, ¬P i) ∨ ∃ i : Nat, v = i ∧ IsLeast {i | i < n ∧ P i} i

/-- `v` is the greatest number below `n` with `P`, or `-1` when there is none. -/
def Last (n : Nat) (P : Nat → Prop) (v : Int) : Prop :=
  (v = -1 ∧ ∀ i < n, ¬P i) ∨ ∃ i : Nat, v = i ∧ IsGreatest {i | i < n ∧ P i} i

/-- The answer of a search as a signed number. -/
def orMinusOne : Option Nat → Int
  | some i => i
  | none => -1

/-! ## Upwards and downwards -/

/-- Tests `i`, `i + 1`, …, `i + n - 1`. -/
def searchUp (p : Nat → Bool) : Nat → Nat → Option Nat
  | 0, _ => none
  | n + 1, i => if p i then some i else searchUp p n (i + 1)

/-- Tests `lo + n - 1`, …, `lo`. -/
def searchDown (p : Nat → Bool) (lo : Nat) : Nat → Option Nat
  | 0 => none
  | n + 1 => if p (lo + n) then some (lo + n) else searchDown p lo n

theorem searchUp_eq_none (h : searchUp p n i = none) (hi : i ≤ j) (hj : j < i + n) : p j = false := by
  fun_induction searchUp with
  | case1 => omega
  | case2 => cases h
  | case3 n i hp ih =>
    rcases Nat.lt_or_eq_of_le hi with hlt | rfl
    · exact ih h hlt (by omega)
    · exact Bool.eq_false_iff.2 hp

theorem searchUp_eq_some (h : searchUp p n i = some v) :
    i ≤ v ∧ v < i + n ∧ p v = true ∧ ∀ j, i ≤ j → j < v → p j = false := by
  fun_induction searchUp with
  | case1 => cases h
  | case2 n i hp =>
    cases h
    exact ⟨le_rfl, by omega, hp, fun j h1 h2 => by omega⟩
  | case3 n i hp ih =>
    obtain ⟨hle, hlt, hv, hleast⟩ := ih h
    refine ⟨by omega, by omega, hv, fun j h1 h2 => ?_⟩
    rcases Nat.lt_or_eq_of_le h1 with h1 | rfl
    · exact hleast j h1 h2
    · exact Bool.eq_false_iff.2 hp

theorem searchDown_eq_none (h : searchDown p lo n = none) (hlo : lo ≤ j) (hj : j < lo + n) : p j = false := by
  fun_induction searchDown with
  | case1 => omega
  | case2 => cases h
  | case3 n hp ih =>
    by_cases hlast : j = lo + n
    · rw [hlast]
      exact Bool.eq_false_iff.2 hp
    · exact ih h (by omega)

theorem searchDown_eq_some (h : searchDown p lo n = some v) :
    lo ≤ v ∧ v < lo + n ∧ p v = true ∧ ∀ j, v < j → j < lo + n → p j = false := by
  fun_induction searchDown with
  | case1 => cases h
  | case2 n hp =>
    cases h
    exact ⟨by omega, by omega, hp, fun j h1 h2 => by omega⟩
  | case3 n hp ih =>
    obtain ⟨hle, hlt, hv, hgreatest⟩ := ih h
    refine ⟨hle, by omega, hv, fun j h1 h2 => ?_⟩
    by_cases hlast : j = lo + n
    · rw [hlast]
      exact Bool.eq_false_iff.2 hp
    · exact hgreatest j h1 (by omega)

/-! ## Runs -/

/-- The `n` positions from `s` on are all accepted. -/
def RunAt (good : Nat → Bool) (n s : Nat) : Prop := ∀ i, s ≤ i → i < s + n → good i = true

/-- Looks for `n` accepted positions in a row among the `k` positions from `bit` on, of which the `cnt`
    positions before `bit` may be the beginning. -/
def runSearch (good quit : Nat → Bool) (n : Nat) : Nat → Nat → Nat → Option Nat
  | 0, _, _ => none
  | k + 1, bit, cnt =>
    if good bit then
      if n ≤ cnt + 1 then some (bit - cnt) else runSearch good quit n k (bit + 1) (cnt + 1)
    else if quit bit then none
    else runSearch good quit n k (bit + 1) 0

theorem runSearch_eq_some (hcnt : cnt ≤ bit) (hn : cnt < n) (hback : RunAt good cnt (bit - cnt))
    (h : runSearch good quit n k bit cnt = some s) :
    bit - cnt ≤ s ∧ s + n ≤ bit + k ∧ RunAt good n s ∧ ∀ s', bit - cnt ≤ s' → RunAt good n s' → s ≤ s' := by
  have hnext : ∀ {bit cnt}, cnt ≤ bit → RunAt good cnt (bit - cnt) → good bit = true → RunAt good (cnt + 1) (bit - cnt) := by
    intro bit cnt hcnt hback hg i hi hlt
    by_cases hlast : i = bit
    · rw [hlast, hg]
    · exact hback i hi (by omega)
  fun_induction runSearch with
  | case1 | case4 => cases h
  | case2 k bit cnt hg hend =>
    cases h
    have hn' : n = cnt + 1 := by omega
    exact ⟨le_rfl, by omega, hn' ▸ hnext hcnt hback hg, fun s' h' _ => h'⟩
  | case3 k bit cnt hg hend ih =>
    have hstart : bit + 1 - (cnt + 1) = bit - cnt := by omega
    rw [hstart] at ih
    have hih := ih (by omega) (by omega) (hnext hcnt hback hg) h
    exact ⟨hih.1, by omega, hih.2.2⟩
  | case5 k bit cnt hg hq ih =>
    obtain ⟨hle, hend, hrun, hleast⟩ := ih (by omega) (by omega) (fun i h1 h2 => by omega) h
    refine ⟨by omega, by omega, hrun, fun s' hs' hrun' => ?_⟩
    -- a run that starts before would contain the refused position
    by_cases hlate : bit < s'
    · exact hleast s' (by omega) hrun'
    · exact absurd (hrun' bit (by omega) (by omega)) hg

/-- **When nothing is found**, every run lies behind a position where the search was given up. -/
theorem runSearch_eq_none (hcnt : cnt ≤ bit) (hn : cnt < n)
    (h : runSearch good quit n k bit cnt = none) (hs : bit - cnt ≤ s) (hend : s + n ≤ bit + k)
    (hrun : RunAt good n s) : ∃ q, bit ≤ q ∧ q < s ∧ good q = false ∧ quit q = true := by
  have hlate : ∀ {bit cnt}, bit - cnt ≤ s → cnt < n → ¬good bit = true → bit < s := by
    intro bit cnt hs hn hg
    by_contra hcon
    exact hg (hrun bit (by omega) (by omega))
  fun_induction runSearch with
  | case1 => omega
  | case2 => cases h
  | case3 k bit cnt hg hlen ih =>
    obtain ⟨q, hq, hrest⟩ := ih (by omega) (by omega) h (by omega) (by omega)
    exact ⟨q, by omega, hrest⟩
  | case4 k bit cnt hg hq => exact ⟨bit, le_rfl, hlate hs hn hg, Bool.eq_false_iff.2 hg, hq⟩
  | case5 k bit cnt hg hq ih =>
    have := hlate hs hn hg
    obtain ⟨q, hq, hrest⟩ := ih (by omega) (by omega) h (by omega) (by omega)
    exact ⟨q, by omega, hrest⟩

theorem first_runSearch (good : Nat → Bool) (m : Nat) (hn : 0 < n) :
    First m (fun s => s + n ≤ m ∧ RunAt good n s) (orMinusOne (runSearch good (fun _ => false) n m 0 0)) := by
  cases h : runSearch good (fun _ => false) n m 0 0 with
  | none =>
    refine .inl ⟨rfl, fun s _ hs => ?_⟩
    obtain ⟨q, _, _, _, hq⟩ := runSearch_eq_none le_rfl hn h (by omega) (by omega) hs.2
    cases hq
  | some s =>
    obtain ⟨-, hend, hrun, hleast⟩ := runSearch_eq_some le_rfl hn (fun i h1 h2 => by omega) h
    exact .inr ⟨s, rfl, ⟨by omega, by omega, hrun⟩, fun s' hs' => hleast s' (by omega) hs'.2.2⟩

end Slurmpp
