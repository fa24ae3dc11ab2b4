/-
# Lkv.Theory.Interleaving — threads that take turns on a shared state

A `Pool` is a shared state and the threads at work on it.  One step of a pool is one
atomic step of one of its threads, or a new thread coming in; `Runs` is any number of
such steps in any order.

`Runs.holds` is the rule for invariants: what a thread knows about the shared state has
to survive the steps of the others, and for that it is enough that it survives what every
step guarantees (`rely`).
-/
import Mathlib.Data.List.Basic

namespace Lkv.Theory

set_option autoImplicit false

structure Pool (σ τ : Type) where
  shared : σ
  threads : List τ

namespace Pool

variable {σ τ : Type}

/-- One atomic step: `move` of one thread, or a thread that satisfies `fresh` comes in. -/
inductive Step (fresh : τ → Prop) (move : τ → σ → Option (τ × σ)) : Pool σ τ → Pool σ τ → Prop
  | enter (s : σ) (threads : List τ) (t : τ) (new : fresh t) :
      Step fresh move ⟨s, threads⟩ ⟨s, t :: threads⟩
  | move {s s' : σ} {t t' : τ} (before after : List τ) (made : move t s = some (t', s')) :
      Step fresh move ⟨s, before ++ t :: after⟩ ⟨s', before ++ t' :: after⟩

inductive Runs (fresh : τ → Prop) (move : τ → σ → Option (τ × σ)) (first : Pool σ τ) : Pool σ τ → Prop
  | start : Runs fresh move first first
  | step {p p' : Pool σ τ} (runs : Runs fresh move first p) (step : Step fresh move p p') :
      Runs fresh move first p'

/-- What one step of a thread must do so that `shared` and each thread's `knows` hold
throughout: keep `shared`, reach a state that it knows enough about, and do nothing to the
shared state that `rely` does not allow. -/
structure Keeps (fresh : τ → Prop) (move : τ → σ → Option (τ × σ)) (shared : σ → List τ → Prop)
    (knows : σ → τ → Prop) (rely : σ → σ → Prop) : Prop where
  enters : ∀ {s threads t}, shared s threads → fresh t → shared s (t :: threads) ∧ knows s t
  moves : ∀ {s s' t t' before after}, shared s (before ++ t :: after) → knows s t →
    move t s = some (t', s') → shared s' (before ++ t' :: after) ∧ knows s' t' ∧ rely s s'
  stable : ∀ {s s' t}, rely s s' → knows s t → knows s' t

theorem Runs.holds {fresh : τ → Prop} {move : τ → σ → Option (τ × σ)} {shared : σ → List τ → Prop}
    {knows : σ → τ → Prop} {rely : σ → σ → Prop} {first p : Pool σ τ}
    (keeps : Keeps fresh move shared knows rely) (runs : Runs fresh move first p)
    (sharedFirst : shared first.shared first.threads)
    (knowsFirst : ∀ t ∈ first.threads, knows first.shared t) :
    shared p.shared p.threads ∧ ∀ t ∈ p.threads, knows p.shared t := by
  induction runs with
  | start => exact ⟨sharedFirst, knowsFirst⟩
  | step _ step ih =>
      obtain ⟨sharedNow, knowsNow⟩ := ih
      cases step with
      | enter s threads t new =>
          obtain ⟨sharedNext, knowsNew⟩ := keeps.enters sharedNow new
          exact ⟨sharedNext, List.forall_mem_cons.mpr ⟨knowsNew, knowsNow⟩⟩
      | @move s s' t t' before after made =>
          have own : knows s t := knowsNow t (by simp)
          obtain ⟨sharedNext, knowsNext, allowed⟩ := keeps.moves sharedNow own made
          refine ⟨sharedNext, fun u member => ?_⟩
          simp only [List.mem_append, List.mem_cons] at member
          rcases member with earlier | rfl | later
          · exact keeps.stable allowed (knowsNow u (by simp [earlier]))
          · exact knowsNext
          · exact keeps.stable allowed (knowsNow u (by simp [later]))

end Pool

end Lkv.Theory
