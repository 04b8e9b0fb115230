import Mathlib.Logic.Function.Basic
import Zmqlog.Transition

/-! Relays. Messages are put on queues, one is taken off the head of its queue
and carried for a while, and then it is handed over. Nothing is lost, doubled
or reordered on the way. -/
namespace Zmqlog.Relay
open Transition

universe u v
variable {κ : Type u} {μ : Type v} [DecidableEq κ] [DecidableEq μ]

@[ext] structure State (κ : Type u) (μ : Type v) where
  queued : κ → List μ
  carried : κ → Option μ

inductive Act (κ : Type u) (μ : Type v)
  | put (k : κ) (m : μ)
  | take (k : κ) (m : μ)
  | emit (k : κ) (m : μ)

def relay (κ : Type u) (μ : Type v) [DecidableEq κ] [DecidableEq μ] :
    Machine (State κ μ) (Act κ μ) where
  init := ⟨fun _ => [], fun _ => none⟩
  step s
    | .put k m => some { s with queued := Function.update s.queued k (s.queued k ++ [m]) }
    | .take k m =>
      if s.carried k = none ∧ (s.queued k).head? = some m then
        some ⟨Function.update s.queued k (s.queued k).tail,
          Function.update s.carried k (some m)⟩
      else none
    | .emit k m =>
      if s.carried k = some m then
        some { s with carried := Function.update s.carried k none }
      else none

def Act.putOn (k : κ) : Act κ μ → List μ
  | .put j m => if j = k then [m] else []
  | _ => []

def Act.emittedFrom (k : κ) : Act κ μ → List μ
  | .emit j m => if j = k then [m] else []
  | _ => []

def puts (k : κ) (acts : List (Act κ μ)) : List μ := acts.flatMap (Act.putOn k)

def emits (k : κ) (acts : List (Act κ μ)) : List μ := acts.flatMap (Act.emittedFrom k)

/-- What is neither handed over nor lost. -/
def State.held (s : State κ μ) (k : κ) : List μ := (s.carried k).toList ++ s.queued k

theorem held_step {s t : State κ μ} {a : Act κ μ} (h : (relay κ μ).step s a = some t) (k : κ) :
    s.held k ++ a.putOn k = a.emittedFrom k ++ t.held k := by
  cases a with
  | put j m =>
    cases Option.some.inj h
    by_cases hj : j = k
    · subst hj
      simp [State.held, Act.putOn, Act.emittedFrom]
    · have hk : k ≠ j := fun heq => hj heq.symm
      simp [State.held, Act.putOn, Act.emittedFrom, hj, hk]
  | take j m =>
    simp only [relay, Option.ite_none_right_eq_some] at h
    rcases h with ⟨⟨hnone, hhead⟩, ht⟩
    cases Option.some.inj ht
    by_cases hj : j = k
    · subst hj
      have hqueue := List.cons_head?_tail (Option.mem_def.mpr hhead)
      simp [State.held, Act.putOn, Act.emittedFrom, hnone, hqueue]
    · have hk : k ≠ j := fun heq => hj heq.symm
      simp [State.held, Act.putOn, Act.emittedFrom, hk]
  | emit j m =>
    simp only [relay, Option.ite_none_right_eq_some] at h
    rcases h with ⟨hcarried, ht⟩
    cases Option.some.inj ht
    by_cases hj : j = k
    · subst hj
      simp [State.held, Act.putOn, Act.emittedFrom, hcarried]
    · have hk : k ≠ j := fun heq => hj heq.symm
      simp [State.held, Act.putOn, Act.emittedFrom, hj, hk]

/-- What was put on a queue is what was handed over from it, followed by the
message that is carried and those that are still queued. -/
theorem conserved {acts : List (Act κ μ)} {s : State κ μ}
    (h : (relay κ μ).run (relay κ μ).init acts = some s) (k : κ) :
    puts k acts = emits k acts ++ (s.carried k).toList ++ s.queued k := by
  rw [List.append_assoc]
  refine run_induction (M := relay κ μ)
    (I := fun acts s => puts k acts = emits k acts ++ s.held k) rfl ?_ acts s h
  intro acts s a t _ ih hstep
  rw [puts, emits, List.flatMap_append, List.flatMap_append, List.flatMap_singleton,
    List.flatMap_singleton, List.append_assoc, ← held_step hstep k, ← List.append_assoc]
  exact congrArg (· ++ a.putOn k) ih

end Zmqlog.Relay
