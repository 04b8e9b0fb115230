import Mathlib.Logic.Function.Basic
import Zmqlog.Refinement

/-! Spoolers. What is put on the queues goes out one at a time through one
hand. A spooler that is asked to stop lets one more message out at most, and
then nothing until it is started again; what is queued meanwhile stays. -/
namespace Zmqlog.Spool
open Transition Refinement

universe u v
variable {κ : Type u} {μ : Type v} [DecidableEq κ] [DecidableEq μ]

/-- `last` tells whether a message may still go out. -/
inductive Phase
  | running
  | draining (last : Bool)
  | resting
deriving DecidableEq

def Phase.lets : Phase → Bool
  | .running => true
  | .draining last => last
  | .resting => false

def Phase.emitted : Phase → Phase
  | .draining _ => .draining false
  | p => p

structure State (κ : Type u) (μ : Type v) where
  phase : Phase
  queued : κ → List μ
  hand : Option (κ × μ)

inductive Act (κ : Type u) (μ : Type v)
  | put (k : κ) (m : μ)
  | take (k : κ) (m : μ)
  | emit (k : κ) (m : μ)
  | stop
  | rest
  | start

def spool (κ : Type u) (μ : Type v) [DecidableEq κ] [DecidableEq μ] :
    Machine (State κ μ) (Act κ μ) where
  init := ⟨.running, fun _ => [], none⟩
  step s
    | .put k m => some { s with queued := Function.update s.queued k (s.queued k ++ [m]) }
    | .take k m =>
      if s.phase.lets ∧ s.hand = none ∧ (s.queued k).head? = some m then
        some { s with
          queued := Function.update s.queued k (s.queued k).tail
          hand := some (k, m) }
      else none
    | .emit k m =>
      if s.phase.lets ∧ s.hand = some (k, m) then
        some { s with phase := s.phase.emitted, hand := none }
      else none
    | .stop => if s.phase = .running then some { s with phase := .draining true } else none
    | .rest =>
      match s.phase, s.hand with
      | .draining _, none => some { s with phase := .resting }
      | _, _ => none
    | .start => if s.phase = .resting then some { s with phase := .running } else none

inductive Seen (κ : Type u) (μ : Type v)
  | put (k : κ) (m : μ)
  | emit (k : κ) (m : μ)
  | stop
  | rest
  | start

def seen : Act κ μ → Option (Seen κ μ)
  | .put k m => some (.put k m)
  | .take _ _ => none
  | .emit k m => some (.emit k m)
  | .stop => some .stop
  | .rest => some .rest
  | .start => some .start

def Seen.isEmit : Seen κ μ → Bool
  | .emit _ _ => true
  | _ => false

def Act.isEmit : Act κ μ → Bool
  | .emit _ _ => true
  | _ => false

omit [DecidableEq κ] [DecidableEq μ] in
theorem any_isEmit_seen (a : Act κ μ) : (seen a).any Seen.isEmit = a.isEmit := by
  cases a <;> rfl

def Phase.credit (p : Phase) : Nat := p.lets.toNat

theorem emits_step {s t : State κ μ} {a : Act κ μ} (hs : s.phase ≠ .running) (hstart : a ≠ .start)
    (h : (spool κ μ).step s a = some t) :
    t.phase ≠ .running ∧ a.isEmit.toNat + t.phase.credit ≤ s.phase.credit := by
  cases a with
  | put k m =>
    cases Option.some.inj h
    exact ⟨hs, by simp [Act.isEmit]⟩
  | take k m =>
    simp only [spool, Option.ite_none_right_eq_some] at h
    obtain ⟨-, ht⟩ := h
    cases Option.some.inj ht
    exact ⟨hs, by simp [Act.isEmit]⟩
  | emit k m =>
    simp only [spool, Option.ite_none_right_eq_some] at h
    obtain ⟨⟨hlets, -⟩, ht⟩ := h
    cases Option.some.inj ht
    cases hphase : s.phase with
    | running => exact absurd hphase hs
    | draining last =>
      rw [hphase] at hlets
      simp [Phase.emitted, Phase.credit, Act.isEmit, hlets]
      rfl
    | resting => simp [hphase, Phase.lets] at hlets
  | stop =>
    simp only [spool, Option.ite_none_right_eq_some] at h
    exact absurd h.1 hs
  | rest =>
    simp only [spool] at h
    split at h
    · cases Option.some.inj h
      exact ⟨by simp, by simp [Phase.credit, Phase.lets, Act.isEmit]⟩
    · cases h
  | start => exact absurd rfl hstart

theorem emits_le {s t : State κ μ} {acts : List (Act κ μ)} (hs : s.phase ≠ .running)
    (hstart : .start ∉ acts) (h : (spool κ μ).run s acts = some t) :
    acts.countP Act.isEmit ≤ s.phase.credit := by
  induction acts generalizing s with
  | nil => exact Nat.zero_le _
  | cons a acts ih =>
    obtain ⟨u, hu, htail⟩ := (run_cons_eq_some _).mp h
    rw [List.mem_cons, not_or] at hstart
    obtain ⟨hu', hcredit⟩ := emits_step hs (Ne.symm hstart.1) hu
    have hrest := ih hu' hstart.2 htail
    rw [List.countP_cons]
    cases hemit : a.isEmit <;> simp only [hemit, Bool.toNat_true, Bool.toNat_false] at hcredit <;>
      simp <;> omega

/-- From a stop to the next start one message goes out at most. -/
def EndsSoon (trace : List (Seen κ μ)) : Prop :=
  ∀ before after, trace = before ++ .stop :: after → .start ∉ after →
    after.countP Seen.isEmit ≤ 1

theorem endsSoon (acts : List (Act κ μ)) (s : State κ μ)
    (h : (spool κ μ).run (spool κ μ).init acts = some s) : EndsSoon (visible seen acts) := by
  intro before after htrace hstart
  obtain ⟨acts₁, a, acts₂, rfl, ha, rfl⟩ := visible_eq_append_cons htrace
  obtain ⟨u, -, htail⟩ := (run_append_eq_some _).mp h
  obtain ⟨v, hv, hrest⟩ := (run_cons_eq_some _).mp htail
  have hstop : a = .stop := by
    cases a <;> cases ha
    rfl
  subst hstop
  simp only [spool, Option.ite_none_right_eq_some] at hv
  obtain ⟨-, hv⟩ := hv
  cases Option.some.inj hv
  have hnot : Act.start ∉ acts₂ := by
    intro hmem
    exact hstart (List.mem_filterMap.mpr ⟨_, hmem, rfl⟩)
  rw [countP_visible]
  simp only [any_isEmit_seen]
  exact emits_le (by simp) hnot hrest

end Zmqlog.Spool
