/-
  Loops over a list as folds.

  A C loop `for (i = 0; i < n; i++) body(a[i])` is `List.foldl body`.  Three rules are enough to say
  what it does: an invariant of the body holds at the end (`foldl_keeps`); what the body brings about
  for the member it is at, and keeps for the others, holds for all members at the end (`foldl_each`);
  and an invariant that speaks of the members already seen (`foldl_prefix`).
-/
import Mathlib

namespace Slurmpp

open List

variable {σ α : Type*} {f : σ → α → σ} {l : List α}

/-- **An invariant of the body.** -/
theorem foldl_keeps {I : σ → Prop} (hstep : ∀ s, ∀ a ∈ l, I s → I (f s a)) {s : σ} (h : I s) : I (l.foldl f s) := by
  induction l generalizing s with
  | nil => exact h
  | cons a l ih =>
    exact ih (fun s b hb => hstep s b (mem_cons_of_mem _ hb)) (hstep s a mem_cons_self h)

/-- **What the body brings about for each member.** -/
theorem foldl_each {Q : α → σ → Prop} (hset : ∀ s, ∀ a ∈ l, Q a (f s a))
    (hkeep : ∀ s, ∀ a ∈ l, ∀ b ∈ l, Q b s → Q b (f s a)) (s : σ) : ∀ a ∈ l, Q a (l.foldl f s) := by
  induction l generalizing s with
  | nil => simp
  | cons a l ih =>
    intro b hb
    rcases mem_cons.1 hb with rfl | hb
    · exact foldl_keeps (fun s c hc =>
        hkeep s c (mem_cons_of_mem _ hc) b mem_cons_self) (hset s b mem_cons_self)
    · exact ih (fun s a ha => hset s a (mem_cons_of_mem _ ha))
        (fun s a ha c hc => hkeep s a (mem_cons_of_mem _ ha) c (mem_cons_of_mem _ hc)) _ b hb

/-- **An invariant of the members already seen.** -/
theorem foldl_prefix {I : List α → σ → Prop} {s : σ} (h0 : I [] s)
    (hstep : ∀ pre a post s, l = pre ++ a :: post → I pre s → I (pre ++ [a]) (f s a)) : I l (l.foldl f s) := by
  suffices h : ∀ post pre s, l = pre ++ post → I pre s → I l (post.foldl f s) from h l [] s rfl h0
  intro post
  induction post with
  | nil =>
    intro pre s hl hI
    rw [hl, append_nil]
    exact hI
  | cons a post ih =>
    intro pre s hl hI
    exact ih (pre ++ [a]) (f s a) (by rw [hl]; simp) (hstep pre a post s hl hI)

end Slurmpp
