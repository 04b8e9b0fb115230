import Zmqlog.Service

/-! What a step of the service can be. The inversion is made here once: one
rule for each way control goes in `run()` and in the owner's calls, and what
each step leaves alone. -/
namespace Zmqlog.Step
open Transition Zmqpp Control Service

/-- Control of one execution of `run()`, every branch with its own rule. -/
inductive Goes (z : Zlogpull) : Pc → Ev → Pc → Prop
  | bound (k : Sock) (todo : List Sock) :
      Goes z (.bind (k :: todo)) (.bind k true) (.bind todo)
  | refused (k : Sock) (todo : List Sock) :
      Goes z (.bind (k :: todo)) (.bind k false) (.bind [])
  | setup : Goes z (.bind []) .setup .test
  | again : Goes z .test (.test true) .poll
  | finish : Goes z .test (.test false) .leave
  | pollBegin : Goes z .poll .pollBegin .polling
  | pollReturn (ready : List Item) : Goes z .polling (.pollReturn ready) (.dispatch ready)
  | pollThrow : Goes z .polling .pollThrow .test
  | pollEnd : Goes z (.dispatch []) .pollEnd .test
  | enter (k : Sock) (rest : List Item) :
      Goes z (.dispatch (.sock k :: rest)) (.guard k true) (.receive k rest)
  | skip (k : Sock) (rest : List Item) :
      Goes z (.dispatch (.sock k :: rest)) (.guard k false) (.dispatch rest)
  | pollReset (rest : List Item) :
      Goes z (.dispatch (.pipe :: rest)) .pollReset (.dispatch rest)
  | pulled (k : Sock) (n : Nat) (m : Wire) (rest : List Item) (hk : k ≠ .ctl) :
      Goes z (.receive k rest) (.receive k n m) (.route k m rest)
  | requested (n : Nat) (m : Wire) (rest : List Item) :
      Goes z (.receive .ctl rest) (.receive .ctl n m) (.handle m rest)
  | noFrame (k : Sock) (rest : List Item) (hk : k ≠ .ctl) :
      Goes z (.receive k rest) (.receiveNone k) (.dispatch rest)
  | noRequest (rest : List Item) :
      Goes z (.receive .ctl rest) (.receiveNone .ctl) (.reply [] rest)
  | receiveThrow (k : Sock) (rest : List Item) :
      Goes z (.receive k rest) (.receiveThrow k) .test
  | route (k : Sock) (m : Wire) (rest : List Item) :
      Goes z (.route k m rest) (.route k m.first) (.dispatch rest)
  | answered (m : Wire) (rest : List Item) (rsp : Message)
      (hrsp : Control.handleCmd z.toEndpoints m.parts [] = .ok rsp) :
      Goes z (.handle m rest) .handleCmd (.reply rsp rest)
  | malformed (m : Wire) (rest : List Item)
      (hrsp : Control.handleCmd z.toEndpoints m.parts [] = .error .zmqpp) :
      Goes z (.handle m rest) .handleCmd .test
  | send (rsp : Message) (rest : List Item) (hrsp : rsp ≠ []) :
      Goes z (.reply rsp rest) (.send rsp) (.dispatch rest)
  | sendThrow (rsp : Message) (rest : List Item) (hrsp : rsp ≠ []) :
      Goes z (.reply rsp rest) .sendThrow .test
  | sendNothing (rest : List Item) : Goes z (.reply [] rest) .sendNothing .escaped
  | ret : Goes z .leave .ret .returned

theorem handler_received (k : Sock) (m : Wire) (rest : List Item) (hk : k ≠ .ctl) :
    (handler k).received m rest = .route k m rest := by
  cases k with
  | ctl => exact absurd rfl hk
  | _ => rfl

theorem handler_empty (k : Sock) (rest : List Item) (hk : k ≠ .ctl) :
    (handler k).empty rest = .dispatch rest := by
  cases k with
  | ctl => exact absurd rfl hk
  | _ => rfl

theorem goes_of_next {z : Zlogpull} {pc pc' : Pc} {ev : Ev} (h : pc.next z ev = some pc') :
    Goes z pc ev pc' := by
  unfold Pc.next at h
  split at h
  · split at h
    · rename_i k todo j ok hj
      cases Option.some.inj h
      subst hj
      cases ok with
      | true => exact .bound _ _
      | false => exact .refused _ _
    · cases h
  · cases Option.some.inj h
    exact .setup
  · rename_i b
    cases Option.some.inj h
    cases b with
    | true => exact .again
    | false => exact .finish
  · cases Option.some.inj h
    exact .pollBegin
  · cases Option.some.inj h
    exact .pollReturn _
  · cases Option.some.inj h
    exact .pollThrow
  · cases Option.some.inj h
    exact .pollEnd
  · split at h
    · rename_i k rest j b hj
      cases Option.some.inj h
      subst hj
      cases b with
      | true => exact .enter _ _
      | false => exact .skip _ _
    · cases h
  · cases Option.some.inj h
    exact .pollReset _
  · split at h
    · rename_i k rest j n m hj
      cases Option.some.inj h
      subst hj
      by_cases hk : j = .ctl
      · subst hk
        exact .requested _ _ _
      · rw [handler_received j m rest hk]
        exact .pulled _ _ _ _ hk
    · cases h
  · split at h
    · rename_i k rest j hj
      cases Option.some.inj h
      subst hj
      by_cases hk : j = .ctl
      · subst hk
        exact .noRequest _
      · rw [handler_empty j rest hk]
        exact .noFrame _ _ hk
    · cases h
  · split at h
    · rename_i k rest j hj
      cases Option.some.inj h
      subst hj
      exact .receiveThrow _ _
    · cases h
  · split at h
    · rename_i k m rest j frame hj
      cases Option.some.inj h
      rcases hj with ⟨rfl, rfl⟩
      exact .route _ _ _
    · cases h
  · split at h
    · rename_i rsp hrsp
      cases Option.some.inj h
      exact .answered _ _ _ hrsp
    · rename_i f hf
      cases Option.some.inj h
      cases handleCmd_error hf
      exact .malformed _ _ hf
  · split at h
    · rename_i part parts rest rsp hrsp
      cases Option.some.inj h
      subst hrsp
      exact .send _ _ (by simp)
    · cases h
  · cases Option.some.inj h
    exact .sendThrow _ _ (by simp)
  · cases Option.some.inj h
    exact .sendNothing _
  · cases Option.some.inj h
    exact .ret
  · cases h

theorem next_of_goes {z : Zlogpull} {pc pc' : Pc} {ev : Ev} (h : Goes z pc ev pc') :
    pc.next z ev = some pc' := by
  cases h with
  | pulled k n m rest hk => simp [Pc.next, handler_received k m rest hk]
  | noFrame k rest hk => simp [Pc.next, handler_empty k rest hk]
  | answered m rest rsp hrsp => simp [Pc.next, hrsp]
  | malformed m rest hrsp => simp [Pc.next, hrsp, raise]
  | send rsp rest hrsp =>
    cases rsp with
    | nil => exact absurd rfl hrsp
    | cons part parts => simp [Pc.next]
  | sendThrow rsp rest hrsp =>
    cases rsp with
    | nil => exact absurd rfl hrsp
    | cons part parts => rfl
  | _ => simp [Pc.next, raise, handler, inCtl]

theorem Goes.active {z : Zlogpull} {pc pc' : Pc} {ev : Ev} (h : Goes z pc ev pc') :
    pc.active = true := by
  cases h <;> rfl

theorem Goes.ne_unlaunched {z : Zlogpull} {pc pc' : Pc} {ev : Ev} (h : Goes z pc ev pc') :
    pc' ≠ .unlaunched := by
  cases h <;> simp

/-- Control of the owner. -/
inductive Calls : Owner → OwnerEv → Owner → Prop
  | start : Calls .idle .start .startTest
  | stop : Calls .idle .stop (.stopTest .user)
  | destroy : Calls .idle .destroy (.stopTest .destructor)
  | started : Calls .startTest (.test true) .idle
  | restart : Calls .startTest (.test false) .startSet
  | set : Calls .startSet .set .startLaunch
  | launch : Calls .startLaunch .launch .startAssign
  | assign : Calls .startAssign .assign .idle
  | stopping (c : Caller) : Calls (.stopTest c) (.test true) (.stopClear c)
  | stopped (c : Caller) : Calls (.stopTest c) (.test false) (afterStop c)
  | clear (c : Caller) : Calls (.stopClear c) .clear (.stopWrite c)
  | pollCancel (c : Caller) : Calls (.stopWrite c) .pollCancel (.stopWait c)
  | wait (c : Caller) : Calls (.stopWait c) .wait (unbindFrom c unbindOrder)
  | unbind (c : Caller) (k : Sock) (todo : List Sock) :
      Calls (.unbind c k todo) (.unbind k true) (unbindFrom c todo)
  | unbindThrow (c : Caller) (k : Sock) (todo : List Sock) :
      Calls (.unbind c k todo) (.unbind k false) (.stopEnd c true)
  | ret (c : Caller) : Calls (.stopEnd c false) .ret (afterStop c)
  | throw (c : Caller) : Calls (.stopEnd c true) .ret (afterThrow c)
  | close (p : Resource) (todo : List Resource) :
      Calls (.destroying p todo) (.close p) (destroyFrom todo)

theorem calls_of_next {o o' : Owner} {ev : OwnerEv} (h : o.next ev = some o') :
    Calls o ev o' := by
  unfold Owner.next at h
  split at h
  · cases Option.some.inj h
    exact .start
  · cases Option.some.inj h
    exact .stop
  · cases Option.some.inj h
    exact .destroy
  · rename_i b
    cases Option.some.inj h
    cases b with
    | true => exact .started
    | false => exact .restart
  · cases Option.some.inj h
    exact .set
  · cases Option.some.inj h
    exact .launch
  · cases Option.some.inj h
    exact .assign
  · rename_i c b
    cases Option.some.inj h
    cases b with
    | true => exact .stopping c
    | false => exact .stopped c
  · cases Option.some.inj h
    exact .clear _
  · cases Option.some.inj h
    exact .pollCancel _
  · cases Option.some.inj h
    exact .wait _
  · split at h
    · rename_i c k todo j ok hj
      cases Option.some.inj h
      subst hj
      cases ok with
      | true => exact .unbind _ _ _
      | false => exact .unbindThrow _ _ _
    · cases h
  · rename_i c threw
    cases Option.some.inj h
    cases threw with
    | true => exact .throw c
    | false => exact .ret c
  · split at h
    · rename_i p todo q hq
      cases Option.some.inj h
      subst hq
      exact .close _ _
    · cases h
  · cases h

theorem calls_stopWait {o o' : Owner} {ev : OwnerEv} {c : Caller} (h : Calls o ev o')
    (ho : o' = .stopWait c) : o = .stopWrite c ∧ ev = .pollCancel := by
  cases h with
  | pollCancel c' =>
    cases ho
    exact ⟨rfl, rfl⟩
  | wait c' => simp [unbindFrom, unbindOrder] at ho
  | unbind c' k todo => cases todo <;> cases ho
  | close p todo => cases todo <;> cases ho
  | stopped c' | ret c' | throw c' => cases c' <;> cases ho
  | _ => cases ho

theorem room_iff {z : Zlogpull} {n : Nat} : z.room n = true ↔ ∀ c ∈ z.capacity, n < c := by
  simp [Zlogpull.room, Option.all_eq_true]

theorem step_run {z : Zlogpull} {s t : State} {i : Nat} {ev : Ev} :
    (service z).step s (.run i ev) = some t ↔
      s.enables ev = true ∧ ∃ pc, Goes z (s.runs i) ev pc ∧ (s.effect ev).goto i pc = t := by
  simp only [service, Option.ite_none_right_eq_some, Option.map_eq_some_iff]
  refine and_congr_right fun _ => ⟨?_, ?_⟩
  · rintro ⟨pc, hnext, rfl⟩
    exact ⟨pc, goes_of_next hnext, rfl⟩
  · rintro ⟨pc, hgoes, rfl⟩
    exact ⟨pc, next_of_goes hgoes, rfl⟩

theorem step_owner {z : Zlogpull} {s t : State} {ev : OwnerEv}
    (h : (service z).step s (.owner ev) = some t) :
    s.permits z ev = true ∧ ∃ owner, Calls s.owner ev owner ∧ (s.act ev).proceed owner = t := by
  simp only [service, Option.ite_none_right_eq_some, Option.map_eq_some_iff] at h
  rcases h with ⟨hpermits, owner, hnext, rfl⟩
  exact ⟨hpermits, owner, calls_of_next hnext, rfl⟩

theorem step_next {z : Zlogpull} {s : State} {i : Nat} {ev : Ev} {pc : Pc}
    (henables : s.enables ev = true) (hnext : (s.runs i).next z ev = some pc) :
    (service z).step s (.run i ev) = some ((s.effect ev).goto i pc) := by
  simp [service, henables, hnext]

theorem step_owner_next {z : Zlogpull} {s : State} {ev : OwnerEv} {owner : Owner}
    (hpermits : s.permits z ev = true) (hnext : s.owner.next ev = some owner) :
    (service z).step s (.owner ev) = some ((s.act ev).proceed owner) := by
  simp [service, hpermits, hnext]

theorem step_arrive {z : Zlogpull} {s t : State} {k : Sock} {m : Wire}
    (h : (service z).step s (.arrive k m) = some t) :
    { s with inbox := Function.update s.inbox k (s.inbox k ++ [m]) } = t :=
  Option.some.inj h

/-! What a step leaves alone. -/

section Frame
variable (s : State) (ev : Ev) (i : Nat) (pc : Pc) (owner : Owner)

@[simp] theorem effect_mRun : (s.effect ev).mRun = s.mRun := by
  unfold State.effect; split <;> rfl

@[simp] theorem effect_owner : (s.effect ev).owner = s.owner := by
  unfold State.effect; split <;> rfl

@[simp] theorem effect_runs : (s.effect ev).runs = s.runs := by
  unfold State.effect; split <;> rfl

@[simp] theorem effect_launched : (s.effect ev).launched = s.launched := by
  unfold State.effect; split <;> rfl

@[simp] theorem effect_fut : (s.effect ev).fut = s.fut := by
  unfold State.effect; split <;> rfl

@[simp] theorem effect_closed : (s.effect ev).closed = s.closed := by
  unfold State.effect; split <;> rfl

@[simp] theorem act_inbox (ev : OwnerEv) : (s.act ev).inbox = s.inbox := by
  unfold State.act; split <;> rfl

@[simp] theorem act_rep (ev : OwnerEv) : (s.act ev).rep = s.rep := by
  unfold State.act; split <;> rfl

theorem act_runs {ev : OwnerEv} (h : ev ≠ .launch) : (s.act ev).runs = s.runs := by
  unfold State.act
  split
  all_goals first | rfl | exact absurd rfl h

theorem act_runs_or (ev : OwnerEv) :
    (s.act ev).runs i = s.runs i ∨ i = s.launched ∧ (s.act ev).runs i = .bind bindOrder := by
  by_cases hlaunch : ev = .launch
  · subst hlaunch
    by_cases hi : i = s.launched
    · exact .inr ⟨hi, by simp [State.act, hi]⟩
    · exact .inl (by simp [State.act, hi])
  · exact .inl (by rw [act_runs s hlaunch])

theorem act_launched {ev : OwnerEv} (h : ev ≠ .launch) : (s.act ev).launched = s.launched := by
  unfold State.act
  split
  all_goals first | rfl | exact absurd rfl h

theorem act_fut {ev : OwnerEv} (h : ev ≠ .assign) : (s.act ev).fut = s.fut := by
  unfold State.act
  split
  all_goals first | rfl | exact absurd rfl h

theorem act_pipe {ev : OwnerEv} (h : ev ≠ .pollCancel) : (s.act ev).pipe = s.pipe := by
  unfold State.act
  split
  all_goals first | rfl | exact absurd rfl h

theorem act_mRun {ev : OwnerEv} (hset : ev ≠ .set) (hclear : ev ≠ .clear) :
    (s.act ev).mRun = s.mRun := by
  unfold State.act
  split
  all_goals first | rfl | exact absurd rfl hset | exact absurd rfl hclear

theorem act_closed {ev : OwnerEv} (h : ∀ p, ev ≠ .close p) : (s.act ev).closed = s.closed := by
  unfold State.act
  split
  all_goals first | rfl | exact absurd rfl (h _)

theorem effect_pipe {ev : Ev} (h : ev ≠ .pollReset) : (s.effect ev).pipe = s.pipe := by
  unfold State.effect
  split
  all_goals first | rfl | exact absurd rfl h

@[simp] theorem goto_mRun : (s.goto i pc).mRun = s.mRun := rfl
@[simp] theorem goto_pipe : (s.goto i pc).pipe = s.pipe := rfl
@[simp] theorem goto_bound : (s.goto i pc).bound = s.bound := rfl
@[simp] theorem goto_closed : (s.goto i pc).closed = s.closed := rfl
@[simp] theorem goto_inbox : (s.goto i pc).inbox = s.inbox := rfl
@[simp] theorem goto_rep : (s.goto i pc).rep = s.rep := rfl
@[simp] theorem goto_owner : (s.goto i pc).owner = s.owner := rfl
@[simp] theorem goto_launched : (s.goto i pc).launched = s.launched := rfl
@[simp] theorem goto_fut : (s.goto i pc).fut = s.fut := rfl

@[simp] theorem proceed_mRun : (s.proceed owner).mRun = s.mRun := rfl
@[simp] theorem proceed_pipe : (s.proceed owner).pipe = s.pipe := rfl
@[simp] theorem proceed_bound : (s.proceed owner).bound = s.bound := rfl
@[simp] theorem proceed_closed : (s.proceed owner).closed = s.closed := rfl
@[simp] theorem proceed_inbox : (s.proceed owner).inbox = s.inbox := rfl
@[simp] theorem proceed_rep : (s.proceed owner).rep = s.rep := rfl
@[simp] theorem proceed_owner : (s.proceed owner).owner = owner := rfl
@[simp] theorem proceed_runs : (s.proceed owner).runs = s.runs := rfl
@[simp] theorem proceed_launched : (s.proceed owner).launched = s.launched := rfl
@[simp] theorem proceed_fut : (s.proceed owner).fut = s.fut := rfl

@[simp] theorem goto_self : (s.goto i pc).runs i = pc := by
  simp [State.goto]

theorem goto_other {j : Nat} (h : j ≠ i) : (s.goto i pc).runs j = s.runs j := by
  simp [State.goto, h]

end Frame

end Zmqlog.Step
