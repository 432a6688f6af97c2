/-
  A computation in stages that works on one state and can give up at any stage.

  When it gives up it says why, and the state is left as the stage had it by then, so that what a failed stage did
  can be asked about like what a finished one did.

  `Keeps view ok s o` says of an outcome that what `view` shows of the state is still as in `s`, and that a reason
  to give up is an `ok` one.  Stages in a row keep a view if each of them does (`Keeps.bind`).
-/
import Mathlib

namespace Slurmpp.Stages

inductive Outcome (σ ε : Type)
  | go (s : σ)
  | fail (s : σ) (why : ε)
  | fault

variable {σ ε β : Type} {s s' : σ} {o : Outcome σ ε}

namespace Outcome

def bind (o : Outcome σ ε) (next : σ → Outcome σ ε) : Outcome σ ε :=
  match o with
  | go s => next s
  | fail s why => fail s why
  | fault => fault

section

variable (next : σ → Outcome σ ε)
include next

@[simp] theorem bind_go : (go s).bind next = next s := rfl
@[simp] theorem bind_fail (why : ε) : (fail s why).bind next = fail s why := rfl
@[simp] theorem bind_fault : (fault : Outcome σ ε).bind next = fault := rfl

end

end Outcome

/-- The outcome shows the same as `s`, and gives up only for an `ok` reason. -/
def Keeps (view : σ → β) (ok : ε → Prop) (s : σ) : Outcome σ ε → Prop
  | .go s' => view s' = view s
  | .fail s' why => view s' = view s ∧ ok why
  | .fault => True

variable {view : σ → β} {ok : ε → Prop}

theorem Keeps.bind {next : σ → Outcome σ ε} (ho : Keeps view ok s o) (hnext : ∀ s', Keeps view ok s' (next s')) :
    Keeps view ok s (o.bind next) := by
  cases o with
  | go s' =>
    have hs : view s' = view s := ho
    have hn := hnext s'
    rw [Outcome.bind_go]
    cases h : next s' with
    | go s'' =>
      rw [h] at hn
      exact (hn : view s'' = view s').trans hs
    | fail s'' why =>
      rw [h] at hn
      exact ⟨(hn : view s'' = view s' ∧ ok why).1.trans hs, hn.2⟩
    | fault => trivial
  | fail s' why => exact ho
  | fault => trivial

theorem Keeps.mono {γ : Type} (f : β → γ) (h : Keeps view ok s o) : Keeps (f ∘ view) ok s o := by
  cases o with
  | go s' => exact congrArg f h
  | fail s' why => exact ⟨congrArg f h.1, h.2⟩
  | fault => trivial

end Slurmpp.Stages
