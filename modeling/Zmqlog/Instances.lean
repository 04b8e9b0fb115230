import Mathlib.Data.Fintype.Basic
import Zmqlog.Lifecycle

/-! Several services on one host. `init()` was once to admit a single one, by
a semaphore that is commented out; what is left to keep them apart are the
addresses of `m_tcp` and `m_ctl`, which are the same for all of them. -/
namespace Zmqlog.Instances
open Transition Zmqpp Control Service Step Lifecycle

universe u
variable {κ : Type u} [Fintype κ] [DecidableEq κ]

def onPort : Sock → Bool
  | .tcp | .ctl => true
  | .ipc | .inp => false

/-- A bind to a port succeeds only where no other service has it. -/
def permitted (s : κ → State) (i : κ) : Act → Bool
  | .run _ (.bind k true) => !onPort k || decide (∀ j, j ≠ i → (s j).bound k = false)
  | _ => true

def instances (z : κ → Zlogpull) : Machine (κ → State) (κ × Act) where
  init := fun i => (service (z i)).init
  step s a :=
    if permitted s a.1 a.2 then
      ((service (z a.1)).step (s a.1) a.2).map (Function.update s a.1)
    else none

theorem step_instances {z : κ → Zlogpull} {s t : κ → State} {i : κ} {a : Act}
    (h : (instances z).step s (i, a) = some t) :
    permitted s i a = true ∧
      ∃ r, (service (z i)).step (s i) a = some r ∧ Function.update s i r = t := by
  simpa only [instances, Option.ite_none_right_eq_some, Option.map_eq_some_iff] using h

def ontoInstance (z : κ → Zlogpull) (i : κ) : Simulation (instances z) (service (z i)) where
  abs := fun s => s i
  obs := fun a => if a.1 = i then [a.2] else []
  init := rfl
  step := by
    rintro s ⟨j, a⟩ t _ h
    obtain ⟨-, r, hstep, rfl⟩ := step_instances h
    by_cases hj : j = i
    · subst hj
      simpa using hstep
    · simp [hj, Ne.symm hj]

theorem inv_instance {z : κ → Zlogpull} {s : κ → State} (h : (instances z).Reachable s) (i : κ) :
    Inv (s i) := by
  obtain ⟨acts, hacts⟩ := h
  exact inv_of_reachable ⟨_, (ontoInstance z i).run hacts⟩

theorem bound_of_step {z : Zlogpull} {s t : State} {a : Act} {k : Sock}
    (h : (service z).step s a = some t) (hbound : t.bound k = true) :
    s.bound k = true ∨ ∃ i, a = .run i (.bind k true) := by
  cases a with
  | run i ev =>
    obtain ⟨-, pc, -, rfl⟩ := step_run.mp h
    cases ev with
    | bind j ok =>
      cases ok with
      | false => exact .inl hbound
      | true =>
        by_cases hk : k = j
        · exact .inr ⟨i, by rw [hk]⟩
        · exact .inl (by simpa [State.effect, hk] using hbound)
    | _ => exact .inl hbound
  | owner ev =>
    obtain ⟨-, owner, -, rfl⟩ := step_owner h
    cases ev with
    | unbind j ok =>
      cases ok with
      | false => exact .inl hbound
      | true =>
        by_cases hk : k = j
        · simp [State.act, hk] at hbound
        · exact .inl (by simpa [State.act, hk] using hbound)
    | _ => exact .inl hbound
  | arrive j m =>
    cases step_arrive h
    exact .inl hbound

theorem port_holder {z : κ → Zlogpull} {s : κ → State} (h : (instances z).Reachable s) {k : Sock}
    (hk : onPort k = true) : ∀ i j, (s i).bound k = true → (s j).bound k = true → i = j := by
  refine h.induction
    (I := fun s => ∀ i j, (s i).bound k = true → (s j).bound k = true → i = j) ?_ ?_
  · intro i j hi
    cases hi
  · rintro s ⟨l, a⟩ t _ ih hstep
    obtain ⟨hpermitted, r, hr, rfl⟩ := step_instances hstep
    -- The step can add one holder, where there was no other.
    have hnew (j : κ) (hjl : j ≠ l) (hr' : r.bound k = true) (hj : (s j).bound k = true) :
        l = j := by
      rcases bound_of_step hr hr' with hold | ⟨i, rfl⟩
      · exact ih l j hold hj
      · have hfree : ∀ j, j ≠ l → (s j).bound k = false := by
          simpa [permitted, hk] using hpermitted
        rw [hfree j hjl] at hj
        cases hj
    intro i j hi hj
    by_cases hil : i = l
    · by_cases hjl : j = l
      · rw [hil, hjl]
      · subst hil
        exact hnew j hjl (by simpa using hi) (by simpa [hjl] using hj)
    · by_cases hjl : j = l
      · subst hjl
        exact (hnew i hil (by simpa using hj) (by simpa [hil] using hi)).symm
      · exact ih i j (by simpa [hil] using hi) (by simpa [hjl] using hj)

theorem unbind_of_unbinding {owner : Owner} {mRun : Bool} {j : Sock} {todo : List Sock}
    (h : unbinding owner mRun = some (j :: todo)) : ∃ c, owner = .unbind c j todo := by
  cases owner with
  | unbind c k rest =>
    cases h
    exact ⟨c, rfl⟩
  | idle | startTest | stopTest c => cases mRun <;> cases h
  | _ => cases h

/-- A service that has sockets bound has the first one, unless a `stop()` is
at its unbinds. -/
theorem tcp_of_bound {s : State} (hs : Inv s) {k : Sock} (hk : s.bound k = true) :
    s.bound .tcp = true ∨ ∃ c j todo, s.owner = .unbind c j todo := by
  cases hunbinding : unbinding s.owner s.mRun with
  | none =>
    obtain ⟨l, hl, hinitial, -⟩ := hs.binds hunbinding
    left
    cases l with
    | nil => simp [hl k] at hk
    | cons j l =>
      have hj : j = .tcp := (List.cons_prefix_cons.mp hinitial).1
      simp [hl .tcp, hj]
  | some todo =>
    right
    obtain ⟨-, l, hl, hinitial⟩ := hs.unbinds todo hunbinding
    cases todo with
    | nil =>
      rw [hl.nil hinitial k] at hk
      cases hk
    | cons j todo =>
      obtain ⟨c, howner⟩ := unbind_of_unbinding hunbinding
      exact ⟨c, j, todo, howner⟩

/-- Two services of one host have sockets bound at the same time only while a
`stop()` of one of them is at its unbinds. Otherwise there is one service, and
the others have not even an endpoint of their own. -/
theorem one_in_service (z : κ → Zlogpull) (s : κ → State) (h : (instances z).Reachable s)
    (i j : κ) (hij : i ≠ j) (k l : Sock) (hi : (s i).bound k = true) (hj : (s j).bound l = true) :
    (∃ c k todo, (s i).owner = .unbind c k todo) ∨ ∃ c k todo, (s j).owner = .unbind c k todo := by
  rcases tcp_of_bound (inv_instance h i) hi with hi | hi
  · rcases tcp_of_bound (inv_instance h j) hj with hj | hj
    · exact absurd (port_holder h rfl i j hi hj) hij
    · exact .inr hj
  · exact .inl hi

def handover : List (Bool × Act) :=
  [(false, .run 0 (.bind .tcp true)), (false, .run 0 (.bind .ipc true)),
    (false, .run 0 (.bind .inp true)), (false, .run 0 (.bind .ctl true)), (false, .run 0 .setup),
    (false, .owner .destroy), (false, .owner (.test true)), (false, .owner .clear),
    (false, .owner .pollCancel), (false, .run 0 (.test false)), (false, .run 0 .ret),
    (false, .owner .wait), (false, .owner (.unbind .tcp true)), (true, .run 0 (.bind .tcp true)),
    (true, .run 0 (.bind .ipc true)), (true, .run 0 (.bind .inp true)),
    (true, .run 0 (.bind .ctl false))]

theorem one_in_service_handover :
    ∃ s, (instances fun _ : Bool => sample).run (instances fun _ => sample).init handover =
        some s ∧ (s false).bound .ctl = true ∧ (s true).bound .inp = true ∧
      ((∃ c k todo, (s false).owner = .unbind c k todo) ∨
        ∃ c k todo, (s true).owner = .unbind c k todo) :=
  ⟨_, rfl, rfl, rfl,
    one_in_service (fun _ => sample) _ ⟨handover, rfl⟩ false true (by decide) .ctl .inp rfl rfl⟩

end Zmqlog.Instances
