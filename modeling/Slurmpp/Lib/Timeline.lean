/-
  Timelines: a function of time held as a chain of half-open segments.

  A list of segments is a TIMELINE of the window `[lo, hi)` when it is a `Chain lo hi`.  Two operations are enough to
  change the value on an interval `[a, b)`:

  * `cut x`        — splits the segment that holds `x` strictly inside; nothing changes for a reader (`Follows.cut`);
  * `paint a b f`  — applies `f` to every segment that lies inside `[a, b)`.

  Painting acts as "apply `f` exactly on `[a, b)`" as soon as neither end lies strictly inside a segment
  (`Follows.paint`); WITHOUT the two cuts it silently skips the segments that stick out.
-/
import Mathlib

namespace Slurmpp

open List

/-- One segment: the value `val` on the half-open interval `[lo, hi)`. -/
structure Seg (T α : Type*) where
  lo : T
  hi : T
  val : α
  deriving DecidableEq, Repr

namespace Timeline

variable {T α : Type*} [LinearOrder T] {lo hi x a b t : T} {l : List (Seg T α)}

/-- The segments are non-empty, contiguous, and cover exactly `[lo, hi)`. -/
def Chain : T → T → List (Seg T α) → Prop
  | lo, hi, [] => lo = hi
  | lo, hi, s :: l => s.lo = lo ∧ s.lo < s.hi ∧ Chain s.hi hi l

def Covers (t : T) (s : Seg T α) : Prop := s.lo ≤ t ∧ t < s.hi

instance (t : T) (s : Seg T α) : Decidable (Covers t s) :=
  inferInstanceAs (Decidable (_ ∧ _))

/-- From time `c` on, wherever a segment covers `t`, its value is `f t`. -/
def Follows (c : T) (f : T → α) (l : List (Seg T α)) : Prop :=
  ∀ s ∈ l, ∀ t, c ≤ t → Covers t s → s.val = f t

/-- No segment has `x` strictly inside. -/
def Boundary (x : T) (l : List (Seg T α)) : Prop := ∀ s ∈ l, ¬ (s.lo < x ∧ x < s.hi)

/-! ## What a chain looks like -/

theorem Chain.le : ∀ {l : List (Seg T α)} {lo hi : T}, Chain lo hi l → lo ≤ hi
  | [], _, _, h => le_of_eq h
  | _ :: _, _, _, ⟨hlo, hlt, hrest⟩ => hlo ▸ hlt.le.trans hrest.le

theorem Chain.mem_bounds : ∀ {l : List (Seg T α)} {lo hi : T}, Chain lo hi l →
    ∀ s ∈ l, lo ≤ s.lo ∧ s.lo < s.hi ∧ s.hi ≤ hi
  | [], _, _, _ => nofun
  | r :: l, lo, hi, ⟨hlo, hlt, hrest⟩ => by
      refine forall_mem_cons.2 ⟨⟨hlo.ge, hlt, hrest.le⟩, fun s hs => ?_⟩
      obtain ⟨h1, h2, h3⟩ := hrest.mem_bounds s hs
      exact ⟨hlo ▸ hlt.le.trans h1, h2, h3⟩

theorem Chain.exists_covers : ∀ {l : List (Seg T α)} {lo hi : T}, Chain lo hi l →
    lo ≤ t → t < hi → ∃ s ∈ l, Covers t s
  | [], _, _, h, h1, h2 => absurd (h ▸ h2) (not_lt.mpr h1)
  | r :: l, lo, hi, ⟨hlo, hlt, hrest⟩, h1, h2 => by
      rcases lt_or_ge t r.hi with h | h
      · exact ⟨r, mem_cons_self, hlo.trans_le h1, h⟩
      · obtain ⟨s, hs, hc⟩ := hrest.exists_covers h h2
        exact ⟨s, mem_cons_of_mem _ hs, hc⟩

variable {l : List (Seg T α)}

theorem Chain.boundary_lo {lo hi : T} (h : Chain lo hi l) : Boundary lo l :=
  fun s hs hlt => not_lt.mpr (h.mem_bounds s hs).1 hlt.1

theorem Chain.boundary_hi : ∀ {l : List (Seg T α)} {lo hi : T}, Chain lo hi l →
    ∀ s ∈ l, Boundary s.hi l
  | [], _, _, _ => nofun
  | r :: l, lo, hi, ⟨hlo, hlt, hrest⟩ => by
      refine forall_mem_cons.2 ⟨forall_mem_cons.2 ⟨fun h => lt_irrefl _ h.2, fun u hu h => ?_⟩,
        fun s hs => forall_mem_cons.2 ⟨fun h => ?_, hrest.boundary_hi s hs⟩⟩
      · exact not_lt.mpr (hrest.mem_bounds u hu).1 h.1
      · obtain ⟨h1, h2, _⟩ := hrest.mem_bounds s hs
        exact lt_irrefl _ ((h1.trans_lt h2).trans h.2)

/-! ## `cut` -/

/-- Splits the segment that has `x` strictly inside. -/
def cut (x : T) : List (Seg T α) → List (Seg T α)
  | [] => []
  | s :: l =>
    if s.lo < x ∧ x < s.hi then ⟨s.lo, x, s.val⟩ :: ⟨x, s.hi, s.val⟩ :: l else s :: cut x l

theorem cut_eq_self : ∀ {l : List (Seg T α)}, Boundary x l → cut x l = l
  | [], _ => rfl
  | s :: l, h => by
      rw [cut, if_neg (h s mem_cons_self), cut_eq_self (forall_mem_cons.1 h).2]

theorem Chain.cut : ∀ {l : List (Seg T α)} {lo hi : T}, Chain lo hi l → Chain lo hi (cut x l)
  | [], _, _, h => h
  | s :: l, lo, hi, ⟨hlo, hlt, hrest⟩ => by
      rw [Timeline.cut]
      split
      · rename_i h
        exact ⟨hlo, h.1, rfl, h.2, hrest⟩
      · exact ⟨hlo, hlt, hrest.cut⟩

theorem Follows.tail {c : T} {f : T → α} {s : Seg T α} (h : Follows c f (s :: l)) : Follows c f l :=
  (forall_mem_cons.1 h).2

theorem Follows.cut {c : T} {f : T → α} : ∀ {l : List (Seg T α)}, Follows c f l →
    Follows c f (cut x l)
  | [], h => h
  | s :: l, h => by
      have hs := h s mem_cons_self
      rw [Timeline.cut]
      split
      · rename_i hx
        refine forall_mem_cons.2 ⟨fun t hct ht => ?_, forall_mem_cons.2 ⟨fun t hct ht => ?_, h.tail⟩⟩
        · exact hs t hct ⟨ht.1, ht.2.trans hx.2⟩
        · exact hs t hct ⟨hx.1.le.trans ht.1, ht.2⟩
      · exact forall_mem_cons.2 ⟨hs, h.tail.cut⟩

theorem Chain.boundary_cut : ∀ {l : List (Seg T α)} {lo hi : T}, Chain lo hi l →
    Boundary x (Timeline.cut x l)
  | [], _, _, _ => nofun
  | s :: l, lo, hi, ⟨hlo, hlt, hrest⟩ => by
      rw [Timeline.cut]
      split
      · rename_i hx
        refine forall_mem_cons.2 ⟨fun h => lt_irrefl _ h.2,
          forall_mem_cons.2 ⟨fun h => lt_irrefl _ h.1, fun u hu h => ?_⟩⟩
        exact lt_irrefl _ ((hx.2.trans_le (hrest.mem_bounds u hu).1).trans h.1)
      · rename_i hx
        exact forall_mem_cons.2 ⟨hx, hrest.boundary_cut⟩

theorem Boundary.cut {y : T} : ∀ {l : List (Seg T α)}, Boundary y l → Boundary y (cut x l)
  | [], h => h
  | s :: l, h => by
      have hs := h s mem_cons_self
      have hl : Boundary y l := (forall_mem_cons.1 h).2
      rw [Timeline.cut]
      split
      · rename_i hx
        exact forall_mem_cons.2 ⟨fun hy => hs ⟨hy.1, hy.2.trans hx.2⟩,
          forall_mem_cons.2 ⟨fun hy => hs ⟨hx.1.trans hy.1, hy.2⟩, hl⟩⟩
      · exact forall_mem_cons.2 ⟨hs, hl.cut⟩

/-! ## `paint` -/

/-- Applies `f` to the value of every segment inside `[a, b)`. -/
def paint (a b : T) (f : α → α) (l : List (Seg T α)) : List (Seg T α) :=
  l.map fun s => if a ≤ s.lo ∧ s.hi ≤ b then { s with val := f s.val } else s

theorem Chain.paint {f : α → α} : ∀ {l : List (Seg T α)} {lo hi : T}, Chain lo hi l →
    Chain lo hi (paint a b f l)
  | [], _, _, h => h
  | s :: l, lo, hi, ⟨hlo, hlt, hrest⟩ => by
      have ih : Chain s.hi hi (Timeline.paint a b f l) := hrest.paint
      rw [Timeline.paint] at ih ⊢
      rw [map_cons]
      split
      · exact ⟨hlo, hlt, ih⟩
      · exact ⟨hlo, hlt, ih⟩

/-- **Painting between two boundaries.**  When neither end lies strictly inside a segment, a
    segment covering `t` lies inside `[a, b)` exactly when `t` does, so painting applies `f`
    exactly on `[a, b)`. -/
theorem Follows.paint {c : T} {f : α → α} {g : T → α} (ha : Boundary a l) (hb : Boundary b l) (h : Follows c g l) :
    Follows c (fun t => if a ≤ t ∧ t < b then f (g t) else g t) (paint a b f l) := by
  intro u hu t hct ht
  obtain ⟨s, hs, rfl⟩ := mem_map.mp hu
  by_cases hin : a ≤ s.lo ∧ s.hi ≤ b
  · simp only [if_pos hin] at ht ⊢
    have hcov : a ≤ t ∧ t < b := ⟨hin.1.trans ht.1, ht.2.trans_le hin.2⟩
    rw [if_pos hcov, h s hs t hct ht]
  · simp only [if_neg hin] at ht ⊢
    have hout : ¬ (a ≤ t ∧ t < b) := by
      rintro ⟨h1, h2⟩
      apply hin
      constructor
      · by_contra hlt
        exact ha s hs ⟨not_le.mp hlt, h1.trans_lt ht.2⟩
      · by_contra hlt
        exact hb s hs ⟨ht.1.trans_lt h2, not_le.mp hlt⟩
    rw [if_neg hout, h s hs t hct ht]

end Timeline

end Slurmpp
