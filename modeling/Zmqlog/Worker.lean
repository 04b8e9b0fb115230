import Zmqlog.Progress

/-! `m_run` is how `start()` knows that there is nothing to do, so an
execution must not be gone while it is set. One exit of one handler is not of
the exception type that the loop in `run()` catches. -/
namespace Zmqlog.Worker
open Transition Zmqpp Control Service Step Lifecycle Progress

/-- While `m_run` is set an execution is at work, or `start()` is on its way
from setting the flag to the launch. -/
def Alive (s : State) : Prop :=
  s.mRun = true → s.owner = .startLaunch ∨ ∃ i, (s.runs i).active = true

/-- The send of the reply without parts that `in_ctl` is left with when its
receive takes no request. -/
def sendsNothing : Act → Bool
  | .run _ .sendNothing => true
  | _ => false

/-- No such send, unless `m_run` has been cleared since the receive. -/
def SendsParts (s : State) (a : Act) : Prop := sendsNothing a = true → s.mRun = false

instance decidableSendsParts (s : State) (a : Act) : Decidable (SendsParts s a) :=
  inferInstanceAs (Decidable (_ → _))

structure AliveInv (s : State) : Prop where
  alive : Alive s
  leaving : ∀ i, s.runs i = .leave → s.mRun = false

theorem goes_active {z : Zlogpull} {pc pc' : Pc} {ev : Ev} (hgoes : Goes z pc ev pc')
    (h : pc'.active = false) : pc = .leave ∨ ev = .sendNothing := by
  cases hgoes with
  | ret => exact .inl rfl
  | sendNothing rest => exact .inr rfl
  | _ => cases h

theorem goes_leave {z : Zlogpull} {pc pc' : Pc} {ev : Ev} (hgoes : Goes z pc ev pc')
    (h : pc' = .leave) : ev = .test false := by
  cases hgoes with
  | finish => rfl
  | _ => cases h

theorem aliveInv_run {z : Zlogpull} {s t : State} {i : Nat} {ev : Ev} (hinv : Inv s)
    (hs : AliveInv s) (hok : SendsParts s (.run i ev))
    (h : (service z).step s (.run i ev) = some t) : AliveInv t := by
  rcases step_run.mp h with ⟨henables, pc, hgoes, rfl⟩
  refine ⟨fun hmRun => .inr ⟨i, ?_⟩, fun j hj => ?_⟩
  · have hset : s.mRun = true := by simpa using hmRun
    rw [goto_self]
    by_contra hinactive
    rcases goes_active hgoes (by simpa using hinactive) with hpc | rfl
    · rw [hs.leaving i hpc] at hset
      cases hset
    · rw [hok rfl] at hset
      cases hset
  · by_cases hji : j = i
    · subst hji
      rw [goto_self] at hj
      cases goes_leave hgoes hj
      simpa [State.enables] using henables
    · rw [goto_other _ _ _ hji, effect_runs] at hj
      have := hinv.others hgoes.active hji
      rw [hj] at this
      cases this

theorem aliveInv_owner {z : Zlogpull} {s t : State} {ev : OwnerEv} (hinv : Inv s)
    (hs : AliveInv s) (h : (service z).step s (.owner ev) = some t) : AliveInv t := by
  rcases step_owner h with ⟨-, owner, hcalls, rfl⟩
  by_cases hset : ev = .set
  · subst hset
    generalize howner : s.owner = before at hcalls
    cases hcalls
    refine ⟨fun _ => .inl rfl, fun i hi => ?_⟩
    have hquiet : unbinding s.owner s.mRun = some [] := by rw [howner]; rfl
    have hidle := hinv.idle_of_unbinding hquiet i
    rw [show s.runs i = .leave from hi] at hidle
    cases hidle
  · by_cases hclear : ev = .clear
    · subst hclear
      exact ⟨fun hmRun => (nomatch hmRun), fun _ _ => rfl⟩
    · by_cases hlaunch : ev = .launch
      · subst hlaunch
        refine ⟨fun _ => .inr ⟨s.launched, by simp [State.act, Pc.active]⟩, fun i hi => ?_⟩
        by_cases hne : i = s.launched
        · simp [State.act, hne] at hi
        · exact hs.leaving i (by simpa [State.act, hne] using hi)
      · have hmRun : (s.act ev).mRun = s.mRun := act_mRun s hset hclear
        have hruns : (s.act ev).runs = s.runs := act_runs s hlaunch
        refine ⟨fun hflag => .inr ?_, fun i hi => ?_⟩
        · rw [proceed_mRun, hmRun] at hflag
          rcases hs.alive hflag with howner | hactive
          · rw [howner] at hcalls
            cases hcalls
            exact absurd rfl hlaunch
          · rw [proceed_runs, hruns]
            exact hactive
        · rw [proceed_mRun, hmRun]
          rw [proceed_runs, hruns] at hi
          exact hs.leaving i hi

theorem aliveInv_step {z : Zlogpull} {s t : State} {a : Act}
    (hreach : (service z).Reachable s) (hs : AliveInv s) (hok : SendsParts s a)
    (h : (service z).step s a = some t) : AliveInv t := by
  cases a with
  | run i ev => exact aliveInv_run (inv_of_reachable hreach) hs hok h
  | owner ev => exact aliveInv_owner (inv_of_reachable hreach) hs h
  | arrive k m =>
    cases step_arrive h
    exact ⟨hs.alive, hs.leaving⟩

theorem aliveInv_init (z : Zlogpull) : AliveInv (service z).init where
  alive := fun _ => .inr ⟨0, rfl⟩
  leaving := by
    intro i hi
    by_cases hi0 : i = 0
    · subst hi0
      cases hi
    · simp [service, hi0] at hi

theorem not_alive_of_sendNothing {z : Zlogpull} {s t : State} {a : Act} (hinv : Inv s)
    (hbad : ¬ SendsParts s a) (h : (service z).step s a = some t) : ¬ Alive t := by
  rcases Classical.not_imp.mp hbad with ⟨hnothing, hflag⟩
  have hsend : ∃ i, a = .run i .sendNothing := by
    unfold sendsNothing at hnothing
    split at hnothing
    · exact ⟨_, rfl⟩
    · cases hnothing
  rcases hsend with ⟨i, rfl⟩
  rcases step_run.mp h with ⟨-, pc, hgoes, rfl⟩
  have hactive := hgoes.active
  have hquiet := (hinv.single i hactive).2
  have hpc : pc.active = false := by
    generalize s.runs i = before at hgoes
    cases hgoes
    rfl
  intro halive
  rcases halive (by simpa using hflag) with howner | ⟨j, hj⟩
  · rw [show s.owner = .startLaunch by simpa using howner] at hquiet
    cases hquiet
  · have hgone : (((s.effect .sendNothing).goto i pc).runs j).active = false :=
      hinv.runs_after (P := fun pc => pc.active = false) (fun _ => id) hactive hpc j
    rw [hgone] at hj
    cases hj

theorem alive_of_steps {z : Zlogpull} {acts : List Act}
    (h : (service z).Steps SendsParts (service z).init acts) :
    (service z).Always Alive (service z).init acts := by
  have hinit := Machine.Reachable.init (service z)
  have hkeep := always_of_steps (fun s a t => aliveInv_step) hinit (aliveInv_init z) h
  exact hkeep.mono (fun _ _ hs => hs.alive) hinit

def receivesNothing : Act → Bool
  | .run _ (.receiveNone .ctl) => true
  | _ => false

theorem received_of_reply {z : Zlogpull} {acts : List Act} {s : State}
    (h : (service z).run (service z).init acts = some s) :
    ∀ i rest, s.runs i = .reply [] rest → .run i (.receiveNone .ctl) ∈ acts := by
  refine run_induction (M := service z)
    (I := fun acts s => ∀ i rest, s.runs i = .reply [] rest → .run i (.receiveNone .ctl) ∈ acts)
    ?_ ?_ acts s h
  · intro i rest hi
    by_cases hi0 : i = 0 <;> simp [service, hi0] at hi
  · intro acts s a t _ ih hstep i rest hi
    rw [List.mem_append, List.mem_singleton]
    cases a with
    | run j ev =>
      obtain ⟨-, pc, hgoes, rfl⟩ := step_run.mp hstep
      by_cases hij : i = j
      · subst hij
        rw [goto_self] at hi
        subst hi
        generalize s.runs i = before at hgoes
        cases hgoes with
        | noRequest => exact .inr rfl
        | answered m rest rsp hrsp => exact absurd rfl (handleCmd_ne_nil hrsp)
      · rw [goto_other _ _ _ hij, effect_runs] at hi
        exact .inl (ih i rest hi)
    | owner ev =>
      obtain ⟨-, owner, -, rfl⟩ := step_owner hstep
      rw [proceed_runs] at hi
      rcases act_runs_or s i ev with hruns | ⟨-, hruns⟩ <;> rw [hruns] at hi
      · exact .inl (ih i rest hi)
      · cases hi
    | arrive k m =>
      cases step_arrive hstep
      exact .inl (ih i rest hi)

/-- As long as every receive of `in_ctl` takes a request the worker is alive. -/
theorem alive_of_requests {z : Zlogpull} {acts : List Act} {s : State}
    (h : (service z).run (service z).init acts = some s)
    (hok : ∀ a ∈ acts, receivesNothing a = false) :
    (service z).Always Alive (service z).init acts := by
  apply alive_of_steps
  revert hok
  refine run_induction (M := service z) (I := fun acts _ =>
    (∀ a ∈ acts, receivesNothing a = false) →
      (service z).Steps SendsParts (service z).init acts) (fun _ => trivial) ?_ acts s h
  intro acts s a t hs ih hstep hok
  refine (steps_snoc hs).mpr ⟨ih fun b hb => hok b (List.mem_append_left _ hb), fun hnothing => ?_⟩
  cases a with
  | run i ev =>
    cases ev with
    | sendNothing =>
      obtain ⟨-, pc, hgoes, -⟩ := step_run.mp hstep
      generalize hpc : s.runs i = before at hgoes
      cases hgoes with
      | sendNothing rest => cases hok _ (List.mem_append_left _ (received_of_reply hs i rest hpc))
    | _ => cases hnothing
  | _ => cases hnothing

/-- A run keeps the worker alive exactly if no send in it is one without parts
while `m_run` is set. -/
theorem alive_iff (z : Zlogpull) (acts : List Act) (s : State)
    (h : (service z).run (service z).init acts = some s) :
    (service z).Always Alive (service z).init acts ↔
      (service z).Steps SendsParts (service z).init acts := by
  refine ⟨fun hall => ?_, alive_of_steps⟩
  refine steps_of_always (fun s a t hreach _ hbad hstep => ?_) (Machine.Reachable.init _) h hall
  exact not_alive_of_sendNothing (inv_of_reachable hreach) hbad hstep

def interrupted : List Act :=
  [.run 0 (.bind .tcp true), .run 0 (.bind .ipc true), .run 0 (.bind .inp true),
    .run 0 (.bind .ctl true), .run 0 .setup, .run 0 (.test true), .run 0 .pollBegin,
    .arrive .ctl ⟨networkOrder.encode 1, [networkOrder.encode 2]⟩,
    .run 0 (.pollReturn [.sock .ctl]), .run 0 (.guard .ctl true), .run 0 (.receiveNone .ctl)]

theorem alive_interrupted :
    (service sample).Always Alive (service sample).init interrupted :=
  (alive_iff sample interrupted _ rfl).mpr (by decide)

theorem interrupted_not_alive :
    ∃ s, (service sample).run (service sample).init
        (interrupted ++ [.run 0 .sendNothing]) = some s ∧
      s.runs 0 = .escaped ∧ s.owner = .idle ∧ s.mRun = true ∧ ¬ Alive s := by
  refine ⟨_, rfl, rfl, rfl, rfl, fun halive => ?_⟩
  rcases halive rfl with howner | ⟨i, hi⟩
  · cases howner
  · cases i with
    | zero => cases hi
    | succ i => cases hi

end Zmqlog.Worker
