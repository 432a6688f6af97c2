/-
  Bytes, and programs that read them.

  A `Reader α` looks at an `Input` (bytes and a position) and either returns a value and moves on, or reports an ERROR
  and may have moved on, or ends the whole program (`abort`), or looks behind the end of the bytes (`overread`).

  Two rules for each way to put readers together.  `Reads r bs v`: where `bs` comes next, `r` consumes exactly `bs` and
  returns `v`.  `Safe r i`: from `i`, `r` returns or reports an error, and stays within the bytes.
-/
import Mathlib

namespace Slurmpp

open List Nat

abbrev Byte := BitVec 8

/-! ## Numbers as bytes -/

/-- The `k` low bytes of `x`, the most significant first. -/
def beBytes : Nat → Nat → List Byte
  | 0, _ => []
  | k + 1, x => BitVec.ofNat 8 (x / 256 ^ k) :: beBytes k x

/-- The number that bytes stand for. -/
def beNat (bs : List Byte) : Nat := bs.foldl (fun n b => 256 * n + b.toNat) 0

@[simp] theorem length_beBytes (k x : Nat) : (beBytes k x).length = k := by
  induction k with
  | zero => rfl
  | succ k ih => rw [beBytes, length_cons, ih]

theorem beNat_lt (bs : List Byte) : beNat bs < 256 ^ bs.length := by
  induction bs using reverseRecOn with
  | nil => exact one_pos
  | append_singleton bs b ih =>
    have hb := b.isLt
    rw [beNat] at *
    rw [foldl_append, length_append, length_singleton, pow_succ]
    show 256 * bs.foldl (fun n b => 256 * n + b.toNat) 0 + b.toNat < _
    omega

theorem foldl_beBytes (k x n : Nat) :
    (beBytes k x).foldl (fun n b => 256 * n + b.toNat) n = n * 256 ^ k + x % 256 ^ k := by
  induction k generalizing n with
  | zero => simp [beBytes, mod_one]
  | succ k ih =>
    have hdigit : (BitVec.ofNat 8 (x / 256 ^ k)).toNat = x / 256 ^ k % 256 := by
      rw [BitVec.toNat_ofNat]
    rw [beBytes, foldl_cons, ih, hdigit, pow_succ, mod_mul]
    ring

theorem beNat_beBytes {k x : Nat} (h : x < 256 ^ k) : beNat (beBytes k x) = x := by
  rw [beNat, foldl_beBytes, zero_mul, zero_add, mod_eq_of_lt h]

/-! ## Readers -/

/-- Bytes, and how many of them have been read. -/
structure Input where
  data : List Byte
  pos : Nat

def Input.advance (i : Input) (n : Nat) : Input := { i with pos := i.pos + n }

def Input.ahead (i : Input) : List Byte := i.data.drop i.pos

inductive Outcome (α : Type)
  | ok (v : α) (i : Input)
  | error (i : Input)
  | abort
  | overread

abbrev Reader (α : Type) := Input → Outcome α

namespace Reader

variable {α β : Type} {i j : Input} {bs cs : List Byte} {v : α} {w : β}

def ret (v : α) : Reader α := fun i => .ok v i

def fail : Reader α := fun i => .error i

def die : Reader α := fun _ => .abort

def bind (r : Reader α) (f : α → Reader β) : Reader β := fun i =>
  match r i with
  | .ok v j => f v j
  | .error j => .error j
  | .abort => .abort
  | .overread => .overread

theorem ret_bind (f : α → Reader β) : (ret v).bind f = f v := rfl

theorem bind_assoc {γ : Type} (r : Reader α) (f : α → Reader β) (g : β → Reader γ) :
    (r.bind f).bind g = r.bind fun v => (f v).bind g := by
  funext i
  unfold bind
  cases r i <;> rfl

/-- Copies the next `n` bytes, whether they are there or not. -/
def read (n : Nat) : Reader (List Byte) := fun i =>
  if i.pos + n ≤ i.data.length then .ok (i.ahead.take n) (i.advance n) else .overread

def times (r : Reader α) : Nat → Reader (List α)
  | 0 => ret []
  | n + 1 => bind r fun v => bind (times r n) fun vs => ret (v :: vs)

variable {r : Reader α} {f : α → Reader β}

theorem bind_eq_ok (h : r.bind f i = .ok w j) : ∃ v k, r i = .ok v k ∧ f v k = .ok w j := by
  unfold bind at h
  cases hr : r i with
  | ok v k => exact ⟨v, k, rfl, by rwa [hr] at h⟩
  | error | abort | overread => simp [hr] at h

theorem bind_of_ok {k : Input} (h : r i = .ok v k) : r.bind f i = f v k := by
  unfold bind
  rw [h]

variable {n : Nat}

theorem length_le_of_read (h : read n i = .ok bs j) : bs.length ≤ n := by
  unfold read at h
  split at h
  · cases h
    exact length_take_le _ _
  · cases h

theorem times_eq_ok {P : α → Prop} (hr : ∀ i v j, r i = .ok v j → P v)
    {vs : List α} (h : r.times n i = .ok vs j) : vs.length = n ∧ ∀ v ∈ vs, P v := by
  induction n generalizing i vs with
  | zero =>
    cases h
    exact ⟨rfl, by simp⟩
  | succ n ih =>
    obtain ⟨v, k, hv, h⟩ := bind_eq_ok h
    obtain ⟨ws, l, hws, h⟩ := bind_eq_ok h
    cases h
    obtain ⟨hlen, hall⟩ := ih hws
    exact ⟨by rw [length_cons, hlen], forall_mem_cons.2 ⟨hr i _ _ hv, hall⟩⟩

theorem times_abort {m : Nat} {vs : List α} (hvs : r.times m i = .ok vs j) (hm : m < n)
    (hj : r j = .abort) : r.times n i = .abort := by
  induction m generalizing i n vs with
  | zero =>
    cases hvs
    obtain ⟨n, rfl⟩ := Nat.exists_eq_add_of_lt hm
    rw [Nat.zero_add, times, bind, hj]
  | succ m ih =>
    obtain ⟨n, rfl⟩ : ∃ k, n = k + 1 := ⟨n - 1, by omega⟩
    obtain ⟨v, k, hv, h⟩ := bind_eq_ok hvs
    obtain ⟨ws, l, hws, h⟩ := bind_eq_ok h
    cases h
    rw [times, bind_of_ok hv, bind, ih hws (by omega)]

/-! ### What is consumed -/

/-- Where `bs` comes next, `r` consumes exactly `bs` and returns `v`. -/
def Reads (r : Reader α) (bs : List Byte) (v : α) : Prop :=
  ∀ i : Input, i.pos ≤ i.data.length → bs <+: i.ahead → r i = .ok v (i.advance bs.length)

theorem reads_ret : Reads (ret v) [] v := fun _ _ _ => rfl

theorem ahead_advance : (i.advance n).ahead = i.ahead.drop n := by
  rw [Input.ahead, Input.ahead, drop_drop]
  rfl

theorem pos_add_le (hpos : i.pos ≤ i.data.length) (h : bs <+: i.ahead) : i.pos + bs.length ≤ i.data.length := by
  have hlen := h.length_le
  rw [Input.ahead, length_drop] at hlen
  omega

theorem Reads.bind (hr : Reads r bs v) (hf : Reads (f v) cs w) : Reads (r.bind f) (bs ++ cs) w := by
  intro i hpos hahead
  have hbs : bs <+: i.ahead := (prefix_append bs cs).trans hahead
  have hcs : cs <+: (i.advance bs.length).ahead := by
    obtain ⟨rest, hrest⟩ := hahead
    rw [ahead_advance, ← hrest, append_assoc, drop_left]
    exact prefix_append _ _
  rw [Reader.bind, hr i hpos hbs]
  show f v (i.advance bs.length) = _
  rw [hf (i.advance bs.length) (pos_add_le hpos hbs) hcs, length_append]
  simp only [Input.advance, add_assoc]

theorem reads_read (bs : List Byte) : Reads (read bs.length) bs bs := by
  intro i hpos hahead
  rw [read, if_pos (pos_add_le hpos hahead), ← prefix_iff_eq_take.1 hahead]

theorem Reads.map {f : α → β} (hr : Reads r bs v) : Reads (r.bind fun v => ret (f v)) bs (f v) := by
  have h := hr.bind (f := fun v => ret (f v)) reads_ret
  rwa [append_nil] at h

/-! ### What is missing -/

/-- Where `bs` comes next `r` takes exactly that and returns `v`; where the bytes end within `bs` it
    reports an error. -/
structure Takes (r : Reader α) (bs : List Byte) (v : α) : Prop where
  reads : Reads r bs v
  short : ∀ i : Input, i.pos ≤ i.data.length → i.ahead <+: bs → i.ahead ≠ bs → ∃ j, r i = .error j

theorem takes_ret (v : α) : Takes (ret v) [] v :=
  ⟨reads_ret, fun _ _ hp hne => absurd (prefix_nil.1 hp) hne⟩

theorem Takes.bind (hr : Takes r bs v) (hf : Takes (f v) cs w) : Takes (r.bind f) (bs ++ cs) w := by
  refine ⟨hr.reads.bind hf.reads, fun i hpos hp hne => ?_⟩
  rcases prefix_or_prefix_of_prefix hp (prefix_append bs cs) with h | h
  · by_cases heq : i.ahead = bs
    · -- all of `bs` is there, and nothing of `cs`
      have hok := hr.reads i hpos (heq ▸ prefix_rfl)
      have hrest : (i.advance bs.length).ahead = [] := by
        rw [ahead_advance, heq, drop_length]
      obtain ⟨j, hj⟩ := hf.short (i.advance bs.length) (pos_add_le hpos (heq ▸ prefix_rfl))
        (by rw [hrest]; exact nil_prefix) (by
          rw [hrest]
          rintro rfl
          exact hne (by rw [heq, append_nil]))
      exact ⟨j, by rw [bind_of_ok hok, hj]⟩
    · obtain ⟨j, hj⟩ := hr.short i hpos h heq
      exact ⟨j, by rw [Reader.bind, hj]⟩
  · have hok := hr.reads i hpos h
    obtain ⟨rest, hrest⟩ := h
    have hahead : (i.advance bs.length).ahead = rest := by
      rw [ahead_advance, ← hrest, drop_left]
    rw [← hrest] at hp hne
    obtain ⟨j, hj⟩ := hf.short (i.advance bs.length) (pos_add_le hpos ⟨rest, hrest⟩)
      (by rw [hahead]; exact (prefix_append_right_inj bs).1 hp)
      (by rw [hahead]; rintro rfl; exact hne rfl)
    exact ⟨j, by rw [bind_of_ok hok, hj]⟩

theorem Takes.map {f : α → β} (hr : Takes r bs v) : Takes (r.bind fun v => ret (f v)) bs (f v) := by
  have h := hr.bind (f := fun v => ret (f v)) (takes_ret (f v))
  rwa [append_nil] at h

theorem takes_times {γ : Type} {e : γ → List Byte} {f : γ → α} {xs : List γ} (h : ∀ x ∈ xs, Takes r (e x) (f x)) :
    Takes (r.times xs.length) (xs.flatMap e) (xs.map f) := by
  induction xs with
  | nil => exact takes_ret []
  | cons x xs ih =>
    have hrest := ih (forall_mem_cons.1 h).2
    exact (h x mem_cons_self).bind (hrest.map)

/-! ### What is safe -/

/-- `j` is `i` after some bytes, all of them there. -/
structure Later (i j : Input) : Prop where
  data : j.data = i.data
  pos_le : i.pos ≤ j.pos
  pos_le_length : j.pos ≤ i.data.length

/-- From `i`, the reader returns or reports an error, and stays within the bytes. -/
def Safe (r : Reader α) (i : Input) : Prop :=
  ∃ j, Later i j ∧ (r i = .error j ∨ ∃ v, r i = .ok v j)

theorem Later.refl (h : i.pos ≤ i.data.length) : Later i i := ⟨rfl, le_rfl, h⟩

theorem Later.pos_le_self (h : Later i j) : j.pos ≤ j.data.length := by
  rw [h.data]
  exact h.pos_le_length

theorem Later.trans {k : Input} (h1 : Later i j) (h2 : Later j k) : Later i k := by
  refine ⟨h2.data.trans h1.data, h1.pos_le.trans h2.pos_le, ?_⟩
  rw [← h1.data]
  exact h2.pos_le_length

theorem safe_ret (v : α) (h : i.pos ≤ i.data.length) : Safe (ret v) i :=
  ⟨i, .refl h, .inr ⟨v, rfl⟩⟩

theorem safe_fail (h : i.pos ≤ i.data.length) : Safe (@fail α) i := ⟨i, .refl h, .inl rfl⟩

theorem Safe.bind (hr : Safe r i) (hf : ∀ v j, r i = .ok v j → Later i j → Safe (f v) j) : Safe (r.bind f) i := by
  obtain ⟨j, hj, herr | ⟨v, hv⟩⟩ := hr
  · exact ⟨j, hj, .inl (by rw [Reader.bind, herr])⟩
  · obtain ⟨k, hk, hres⟩ := hf v j hv hj
    refine ⟨k, hj.trans hk, ?_⟩
    rw [Reader.bind, hv]
    exact hres

theorem Safe.later (h : Safe r i) (hv : r i = .ok v j) : Later i j := by
  obtain ⟨k, hk, herr | ⟨w, hw⟩⟩ := h
  · cases herr.symm.trans hv
  · obtain ⟨-, rfl⟩ := Outcome.ok.inj (hw.symm.trans hv)
    exact hk

theorem Safe.map {f : α → β} (hr : Safe r i) : Safe (r.bind fun v => ret (f v)) i :=
  hr.bind fun _ _ _ hj => safe_ret _ hj.pos_le_self

theorem safe_read (h : i.pos + n ≤ i.data.length) : Safe (read n) i := by
  refine ⟨i.advance n, ⟨rfl, le_add_right _ _, h⟩, .inr ⟨i.ahead.take n, ?_⟩⟩
  rw [read, if_pos h]

theorem safe_times_turns (hi : i.pos ≤ i.data.length)
    (hr : ∀ m < n, ∀ vs j, r.times m i = .ok vs j → Later i j → Safe r j) : Safe (r.times n) i := by
  induction n generalizing i with
  | zero => exact safe_ret [] hi
  | succ n ih =>
    refine (hr 0 (succ_pos n) [] i rfl (.refl hi)).bind fun v j hv hj => ?_
    refine (ih hj.pos_le_self fun m hm vs k hk hjk => ?_).bind fun vs k _ hk => safe_ret _ hk.pos_le_self
    refine hr (m + 1) (by omega) (v :: vs) k ?_ (hj.trans hjk)
    rw [times, bind_of_ok hv, bind_of_ok hk]
    rfl

theorem safe_times (hi : i.pos ≤ i.data.length) (hr : ∀ j, Later i j → Safe r j) : Safe (r.times n) i :=
  safe_times_turns hi fun _ _ _ j _ hj => hr j hj

end Reader

end Slurmpp
