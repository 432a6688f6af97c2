/-
  Programs that read a record field by field.  Unlike a reader, a `Filler σ` leaves something behind when it meets an
  error: the record, filled as far as that.

  1. **What is read** does not depend on the record left behind: `f.reader s` forgets it, and turns a sequence of
     fillers into a sequence of readers (`reader_seq`, `reader_loop`).
  2. **What is left behind** — `Leaves f I E`: from a record with `I`, every record that `f` stops at has `E`.
-/
import Slurmpp.Lib.Reader

namespace Slurmpp

inductive Filled (σ : Type)
  | done (s : σ) (i : Input)
  | stopped (s : σ) (i : Input)
  | abort
  | overread

abbrev Filler (σ : Type) := σ → Input → Filled σ

namespace Filler

open Reader List

variable {α σ : Type} {f g : Filler σ} {s t : σ} {i j : Input}

def seq (f g : Filler σ) : Filler σ := fun s i =>
  match f s i with
  | .done t j => g t j
  | .stopped t j => .stopped t j
  | .abort => .abort
  | .overread => .overread

/-- Stores what a reader gives with `put`; an error leaves behind what `spoil` stores. -/
def intoOr (r : Reader α) (put : α → σ → σ) (spoil : Input → σ → σ) : Filler σ := fun s i =>
  match r i with
  | .ok v j => .done (put v s) j
  | .error j => .stopped (spoil i s) j
  | .abort => .abort
  | .overread => .overread

/-- Stores what a reader gives, and nothing if it gives nothing. -/
def into (r : Reader α) (put : α → σ → σ) : Filler σ := intoOr r put fun _ s => s

def check (p : σ → Bool) : Filler σ := fun s i => if p s = true then .done s i else .stopped s i

/-- A filler that depends on the record it starts with. -/
def given (f : σ → Filler σ) : Filler σ := fun s i => f s s i

/-- The fillers of `k`, `k + 1` and so on, `n` of them. -/
def loop (f : Nat → Filler σ) : Nat → Nat → Filler σ
  | _, 0 => .done
  | k, n + 1 => seq (f k) (loop f (k + 1) n)

/-! ### What is read -/

/-- The same program, as one that leaves nothing behind. -/
def reader (f : Filler σ) (s : σ) : Reader σ := fun i =>
  match f s i with
  | .done t j => .ok t j
  | .stopped _ j => .error j
  | .abort => .abort
  | .overread => .overread

theorem reader_seq : (seq f g).reader s = (f.reader s).bind fun t => g.reader t := by
  funext i
  unfold reader seq Reader.bind
  dsimp only
  cases f s i <;> rfl

theorem reader_given (f : σ → Filler σ) : (given f).reader s = (f s).reader s := rfl

theorem reader_intoOr (r : Reader α) (put : α → σ → σ) (spoil : Input → σ → σ) :
    (intoOr r put spoil).reader s = r.bind fun v => ret (put v s) := by
  funext i
  unfold reader intoOr Reader.bind
  cases r i <;> rfl

theorem reader_into (r : Reader α) (put : α → σ → σ) :
    (into r put).reader s = r.bind fun v => ret (put v s) := reader_intoOr r put _

theorem reader_check {p : σ → Bool} (h : p s = true) : (check p).reader s = ret s := by
  funext i
  unfold reader check
  rw [if_pos h]
  rfl

/-- What the values from turn `k` on make of a record. -/
def stored (put : Nat → α → σ → σ) : Nat → List α → σ → σ
  | _, [], s => s
  | k, v :: vs, s => stored put (k + 1) vs (put k v s)

variable {r : Reader α}

theorem reader_loop {f : Nat → Filler σ} {put : Nat → α → σ → σ}
    (hf : ∀ k s, (f k).reader s = r.bind fun v => ret (put k v s)) (k n : Nat) :
    (loop f k n).reader s = (r.times n).bind fun vs => ret (stored put k vs s) := by
  induction n generalizing k s with
  | zero => rfl
  | succ n ih =>
    rw [loop, reader_seq, hf k s, times]
    simp only [bind_assoc, ret_bind, ih]
    rfl

theorem getElem?_stored_set (vs : List α) (k m : Nat) (s : List α) (hfit : k + vs.length ≤ s.length) :
    (stored (fun k v s => s.set k v) k vs s)[m]? = if m < k then s[m]? else (vs ++ s.drop (k + vs.length))[m - k]? := by
  induction vs generalizing k s with
  | nil =>
    rw [stored, nil_append, getElem?_drop]
    split_ifs with hm
    · rfl
    · rw [length_nil, Nat.add_zero, Nat.add_sub_cancel' (Nat.le_of_not_lt hm)]
  | cons v vs ih =>
    rw [length_cons] at hfit
    rw [stored, ih (k + 1) (s.set k v) (by rw [length_set]; omega)]
    by_cases hlt : m < k
    · rw [if_pos (by omega), if_pos hlt, getElem?_set_ne (by omega)]
    · rw [if_neg hlt]
      by_cases heq : m = k
      · subst heq
        rw [if_pos (by omega), getElem?_set_self (by omega), Nat.sub_self]
        rfl
      · rw [if_neg (by omega), drop_set_of_lt (by omega), length_cons,
          show m - k = m - (k + 1) + 1 by omega, cons_append, getElem?_cons_succ,
          show k + 1 + vs.length = k + (vs.length + 1) by omega]

theorem reader_eq_ok : f.reader s i = .ok t j ↔ f s i = .done t j := by
  unfold reader
  cases f s i <;> simp

theorem reader_eq_abort : f.reader s i = .abort ↔ f s i = .abort := by
  unfold reader
  cases f s i <;> simp

theorem reader_eq_error : f.reader s i = .error j ↔ ∃ t, f s i = .stopped t j := by
  unfold reader
  cases f s i <;> simp

/-- Where `bs` comes next, `f` takes exactly that and makes `t` of `s`; where the bytes end within `bs`,
    it stops. -/
def Fills (f : Filler σ) (s : σ) (bs : List Byte) (t : σ) : Prop := Takes (f.reader s) bs t

theorem Fills.seq {u : σ} {bs cs : List Byte} (hf : Fills f s bs t) (hg : Fills g t cs u) :
    Fills (seq f g) s (bs ++ cs) u := by
  unfold Fills
  rw [reader_seq]
  exact hf.bind hg

variable {put : α → σ → σ} {spoil : Input → σ → σ}

theorem fills_intoOr {bs : List Byte} {v : α} (h : Takes r bs v) : Fills (intoOr r put spoil) s bs (put v s) := by
  unfold Fills
  rw [reader_intoOr]
  exact h.map

theorem fills_into {bs : List Byte} {v : α} (h : Takes r bs v) : Fills (into r put) s bs (put v s) := fills_intoOr h

theorem fills_check {p : σ → Bool} (h : p s = true) : Fills (check p) s [] s := by
  unfold Fills
  rw [reader_check h]
  exact takes_ret s

/-! ### What is left behind -/

/-- From a record with `I`, `f` stops only at records with `E`. -/
def Leaves (f : Filler σ) (I E : σ → Prop) : Prop :=
  ∀ s i t j, I s → f s i = .stopped t j → E t

/-- From a record with `I`, `f` goes on only with records with `J`. -/
def Goes (f : Filler σ) (I J : σ → Prop) : Prop := ∀ s i t j, I s → f s i = .done t j → J t

theorem seq_stopped (h : seq f g s i = .stopped t j) :
    f s i = .stopped t j ∨ ∃ u k, f s i = .done u k ∧ g u k = .stopped t j := by
  unfold seq at h
  cases hf : f s i with
  | done u k => exact .inr ⟨u, k, rfl, by rwa [hf] at h⟩
  | stopped u k => exact .inl (by rwa [hf] at h)
  | abort | overread => simp [hf] at h

variable {I J E : σ → Prop}

theorem Leaves.seq (hf : Leaves f I E) (hgo : Goes f I J) (hg : Leaves g J E) : Leaves (seq f g) I E := by
  intro s i t j hs h
  obtain h | ⟨u, k, h1, h2⟩ := seq_stopped h
  · exact hf s i t j hs h
  · exact hg u k t j (hgo s i u k hs h1) h2

theorem goes_intoOr (h : ∀ v s, I s → J (put v s)) : Goes (intoOr r put spoil) I J := by
  intro s i t j hs hdone
  unfold intoOr at hdone
  split at hdone
  · cases hdone
    exact h _ s hs
  · cases hdone
  · cases hdone
  · cases hdone

theorem leaves_intoOr (h : ∀ i s, I s → E (spoil i s)) : Leaves (intoOr r put spoil) I E := by
  intro s i t j hs hstop
  unfold intoOr at hstop
  split at hstop
  · cases hstop
  · cases hstop
    exact h i s hs
  · cases hstop
  · cases hstop

theorem leaves_into : Leaves (into r put) I I :=
  leaves_intoOr fun _ _ hs => hs

theorem goes_into (h : ∀ v s, I s → I (put v s)) : Goes (into r put) I I := goes_intoOr h

theorem Goes.given {f : σ → Filler σ} (h : ∀ u, Goes (f u) I J) :
    Goes (given f) I J := fun s i t j hs hdone => h s s i t j hs hdone

theorem Leaves.given {f : σ → Filler σ} (h : ∀ u, Leaves (f u) I E) :
    Leaves (given f) I E := fun s i t j hs hstop => h s s i t j hs hstop

theorem leaves_of_reads (h : ∀ i j, r i ≠ .error j) : Leaves (into r put) I E := by
  intro s i t j _ hstop
  unfold into intoOr at hstop
  split at hstop
  · cases hstop
  · exact absurd (by assumption) (h i _)
  · cases hstop
  · cases hstop

theorem Leaves.loop {f : Nat → Filler σ} (hgo : ∀ k, Goes (f k) I I)
    (hf : ∀ k, Leaves (f k) I E) (k n : Nat) : Leaves (loop f k n) I E := by
  induction n generalizing k with
  | zero =>
    intro s i t j _ h
    simp [Filler.loop] at h
  | succ n ih => exact (hf k).seq (hgo k) (ih (k + 1))

end Filler

end Slurmpp
