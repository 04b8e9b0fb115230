import Mathlib.Logic.Function.Basic
import Zmqlog.Transition

/-! Threads around one lock. A mutex admits one thread at a time; a null lock
admits every thread and excludes only what a single thread excludes by itself. -/
namespace Zmqlog.Exclusion
open Transition

universe u
variable {τ : Type u} [DecidableEq τ]

inductive Lock
  | mutex
  | null
deriving DecidableEq

def Lock.admits (L : Lock) (holder : Option τ) : Bool :=
  match L with
  | .mutex => holder.isNone
  | .null => true

def Lock.take (L : Lock) (holder : Option τ) (t : τ) : Option τ :=
  match L with
  | .mutex => some t
  | .null => holder

def Lock.drop (L : Lock) (holder : Option τ) : Option τ :=
  match L with
  | .mutex => none
  | .null => holder

inductive Move (τ : Type u)
  | enter (t : τ)
  | leave (t : τ)

def Move.thread : Move τ → τ
  | .enter t => t
  | .leave t => t

structure Section (τ : Type u) where
  holder : Option τ
  inside : τ → Bool

/-- The lock alone: what a program around it may do, and nothing else. -/
def lock (L : Lock) : Machine (Section τ) (Move τ) where
  init := ⟨none, fun _ => false⟩
  step s
    | .enter t =>
      if !s.inside t && L.admits s.holder then
        some ⟨L.take s.holder t, Function.update s.inside t true⟩
      else none
    | .leave t =>
      if s.inside t then some ⟨L.drop s.holder, Function.update s.inside t false⟩ else none

/-- Either the lock is a mutex or one thread makes all the moves. -/
def Serial (L : Lock) (threads : List τ) : Prop :=
  L = .mutex ∨ ∃ t₀, ∀ t ∈ threads, t = t₀

omit [DecidableEq τ] in
theorem Serial.mono {L : Lock} {ts us : List τ} (h : Serial L us) (hsub : ∀ t ∈ ts, t ∈ us) :
    Serial L ts :=
  h.imp id fun ⟨t₀, hall⟩ => ⟨t₀, fun t ht => hall t (hsub t ht)⟩

def Section.Exclusive (s : Section τ) : Prop :=
  ∀ t u, s.inside t → s.inside u → t = u

theorem enter_eq_some {L : Lock} {s u : Section τ} {t : τ} :
    (lock L).step s (.enter t) = some u ↔
      (s.inside t = false ∧ L.admits s.holder = true) ∧
        ⟨L.take s.holder t, Function.update s.inside t true⟩ = u := by
  simp [lock]

theorem leave_eq_some {L : Lock} {s u : Section τ} {t : τ} :
    (lock L).step s (.leave t) = some u ↔
      s.inside t = true ∧ ⟨L.drop s.holder, Function.update s.inside t false⟩ = u := by
  simp [lock]

theorem mutex_holder {moves : List (Move τ)} {s : Section τ}
    (h : (lock .mutex).run (lock .mutex).init moves = some s) :
    ∀ t, s.inside t ↔ s.holder = some t := by
  refine run_induction (I := fun _ s => ∀ t, s.inside t ↔ s.holder = some t) ?_ ?_ moves s h
  · simp [lock]
  · intro moves s move u _ ih hstep v
    cases move with
    | enter t =>
      rcases enter_eq_some.mp hstep with ⟨⟨-, hfree⟩, rfl⟩
      have hnone : s.holder = none := by simpa [Lock.admits] using hfree
      have hout : s.inside v = false := by simpa [hnone] using ih v
      by_cases hv : v = t
      · simp [hv, Lock.take]
      · simp [hv, Ne.symm hv, hout, Lock.take]
    | leave t =>
      rcases leave_eq_some.mp hstep with ⟨hin, rfl⟩
      have hheld := (ih t).mp hin
      by_cases hv : v = t
      · simp [hv, Lock.drop]
      · have hout : s.inside v = false := by simpa [hheld, Ne.symm hv] using ih v
        simp [hv, hout, Lock.drop]

theorem inside_moved {L : Lock} {moves : List (Move τ)} {s : Section τ}
    (h : (lock L).run (lock L).init moves = some s) :
    ∀ t, s.inside t → t ∈ moves.map Move.thread := by
  refine run_induction (I := fun moves s => ∀ t, s.inside t → t ∈ moves.map Move.thread)
    ?_ ?_ moves s h
  · simp [lock]
  · intro moves s move u _ ih hstep v hv
    rw [List.map_append, List.mem_append]
    by_cases hmoved : v = move.thread
    · right
      simp [hmoved]
    · left
      apply ih
      cases move with
      | enter t =>
        rcases enter_eq_some.mp hstep with ⟨-, rfl⟩
        simpa [Function.update_of_ne (show v ≠ t from hmoved)] using hv
      | leave t =>
        rcases leave_eq_some.mp hstep with ⟨-, rfl⟩
        simpa [Function.update_of_ne (show v ≠ t from hmoved)] using hv

theorem exclusive {L : Lock} {moves : List (Move τ)} {s : Section τ}
    (hserial : Serial L (moves.map Move.thread))
    (h : (lock L).run (lock L).init moves = some s) : s.Exclusive := by
  intro t u ht hu
  rcases hserial with rfl | ⟨t₀, hall⟩
  · have hheld := (mutex_holder h t).mp ht
    rw [(mutex_holder h u).mp hu] at hheld
    exact (Option.some.inj hheld).symm
  · rw [hall t (inside_moved h t ht), hall u (inside_moved h u hu)]

end Zmqlog.Exclusion
