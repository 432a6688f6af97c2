/-
  A shared key-value store whose operations are ATOMIC.

  The store is a partial map.  `insert` overwrites, `compareSwap` replaces a value only while it
  is still the one the caller has seen, and hands the current value back when it refuses.  A
  machine over such a store takes one operation per step, so every interleaving of clients is a
  list of operations; what a client may rely on is exactly the equations below.  `writes` is what
  a client leaves that inserts a list of entries one after the other.
-/
import Mathlib

namespace Slurmpp

open List

/-- A shared map from keys to values. -/
abbrev Store (κ υ : Type*) := κ → Option υ

namespace Store

variable {κ υ : Type*} [DecidableEq κ]

def insert (s : Store κ υ) (k : κ) (v : υ) : Store κ υ := Function.update s k (some v)

@[simp] theorem insert_self (s : Store κ υ) (k : κ) (v : υ) : s.insert k v k = some v := by
  simp [insert]

theorem insert_of_ne {k l : κ} (h : l ≠ k) (s : Store κ υ) (v : υ) : s.insert k v l = s l := by
  simp [insert, h]

/-- The store after inserting a list of entries, oldest first. -/
def writes (s : Store κ υ) (L : List (κ × υ)) : Store κ υ :=
  L.foldl (fun t kv => t.insert kv.1 kv.2) s

theorem writes_concat (s : Store κ υ) (L : List (κ × υ)) (kv : κ × υ) :
    s.writes (L ++ [kv]) = (s.writes L).insert kv.1 kv.2 := by
  rw [writes, writes, foldl_append]
  rfl

theorem writes_of_notMem {L : List (κ × υ)} {k : κ} (h : k ∉ L.map Prod.fst) (s : Store κ υ) :
    s.writes L k = s k := by
  induction L generalizing s with
  | nil => rfl
  | cons kv L ih =>
    rw [map_cons, mem_cons, not_or] at h
    rw [writes, foldl_cons, ← writes, ih h.2, insert_of_ne h.1]

theorem writes_of_mem {L : List (κ × υ)} (hnd : (L.map Prod.fst).Nodup) {k : κ} {v : υ}
    (h : (k, v) ∈ L) (s : Store κ υ) : s.writes L k = some v := by
  induction L generalizing s with
  | nil => cases h
  | cons kv L ih =>
    rw [map_cons, nodup_cons] at hnd
    rw [writes, foldl_cons, ← writes]
    rcases mem_cons.1 h with rfl | h
    · rw [writes_of_notMem hnd.1, insert_self]
    · exact ih hnd.2 h _

variable [DecidableEq υ]

/-- Replaces `seen` by `new` under `k`; if something else (or nothing) is there, the store stays
    and the caller is told what it found. -/
def compareSwap (s : Store κ υ) (k : κ) (seen new : υ) : Except (Option υ) (Store κ υ) :=
  if s k = some seen then .ok (s.insert k new) else .error (s k)

/-- **A swap succeeds only on the value that was seen**, and then it is an insert. -/
theorem compareSwap_ok {s t : Store κ υ} {k : κ} {seen new : υ}
    (h : s.compareSwap k seen new = .ok t) : s k = some seen ∧ t = s.insert k new := by
  rw [compareSwap] at h
  split_ifs at h with hk
  · exact ⟨hk, (Except.ok.inj h).symm⟩

theorem compareSwap_error {s : Store κ υ} {k : κ} {seen new : υ} {cur : Option υ}
    (h : s.compareSwap k seen new = .error cur) : s k ≠ some seen ∧ cur = s k := by
  rw [compareSwap] at h
  split_ifs at h with hk
  exact ⟨hk, (Except.error.inj h).symm⟩

end Store

end Slurmpp
