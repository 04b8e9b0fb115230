import Zmqlog.Lifecycle

/-! What the destructor of the service closes: the two ends of the pipe in its
body, and behind that the members. -/
namespace Zmqlog.Teardown
open Transition Zmqpp Control Service Step Lifecycle

def closedBy : Act → List Resource
  | .owner (.close p) => [p]
  | _ => []

def closes (acts : List Act) : List Resource := acts.flatMap closedBy

/-- What the owner has still to close before the object is gone. -/
def remaining : Owner → List Resource
  | .destroying p todo => p :: todo
  | .destroyed => []
  | _ => teardown

theorem mem_teardown (p : Resource) : p ∈ teardown := by
  cases p with
  | sock k => cases k <;> decide
  | _ => decide

theorem remaining_destroyFrom (todo : List Resource) : remaining (destroyFrom todo) = todo := by
  cases todo <;> rfl

theorem remaining_calls {o o' : Owner} {ev : OwnerEv} (h : Calls o ev o') :
    remaining o = closedBy (.owner ev) ++ remaining o' := by
  cases h with
  | close p todo =>
    rw [remaining_destroyFrom]
    rfl
  | wait c => rfl
  | unbind c k todo => cases todo <;> rfl
  | stopped c | ret c | throw c => cases c <;> rfl
  | _ => rfl

structure Torn (acts : List Act) (s : State) : Prop where
  order : closes acts ++ remaining s.owner = teardown
  closed : ∀ p, s.closed p = decide (p ∈ closes acts)

theorem closes_snoc (acts : List Act) (a : Act) :
    closes (acts ++ [a]) = closes acts ++ closedBy a := by
  simp [closes]

theorem Torn.of_silent {acts : List Act} {s t : State} {a : Act} (hs : Torn acts s)
    (ha : closedBy a = []) (howner : t.owner = s.owner) (hclosed : t.closed = s.closed) :
    Torn (acts ++ [a]) t := by
  have hsame : closes (acts ++ [a]) = closes acts := by
    rw [closes_snoc, ha, List.append_nil]
  refine ⟨?_, fun p => ?_⟩
  · rw [hsame, howner]
    exact hs.order
  · rw [hsame, hclosed]
    exact hs.closed p

theorem torn_owner {z : Zlogpull} {acts : List Act} {s t : State} {ev : OwnerEv}
    (hs : Torn acts s) (h : (service z).step s (.owner ev) = some t) :
    Torn (acts ++ [.owner ev]) t := by
  obtain ⟨-, owner, hcalls, rfl⟩ := step_owner h
  refine ⟨?_, fun p => ?_⟩
  · rw [closes_snoc, List.append_assoc, proceed_owner, ← remaining_calls hcalls]
    exact hs.order
  · rw [closes_snoc]
    cases ev with
    | close q => by_cases hp : p = q <;> simp [State.act, closedBy, hp, hs.closed p]
    | _ => simpa [closedBy, act_closed] using hs.closed p

theorem torn_of_run {z : Zlogpull} {acts : List Act} {s : State}
    (h : (service z).run (service z).init acts = some s) : Torn acts s := by
  refine run_induction (M := service z) (I := Torn) ⟨rfl, fun p => by simp [closes, service]⟩ ?_
    acts s h
  intro acts s a t _ hs hstep
  cases a with
  | run i ev =>
    obtain ⟨-, pc, -, rfl⟩ := step_run.mp hstep
    exact hs.of_silent rfl (by simp) (by simp)
  | owner ev => exact torn_owner hs hstep
  | arrive k m =>
    cases step_arrive hstep
    exact hs.of_silent rfl rfl rfl

theorem closed_of_destroyed {z : Zlogpull} {s : State} (h : (service z).Reachable s)
    (howner : s.owner = .destroyed) (p : Resource) : s.closed p = true := by
  obtain ⟨acts, hacts⟩ := h
  obtain ⟨horder, hclosed⟩ := torn_of_run hacts
  have hall : closes acts = teardown := by simpa [howner, remaining] using horder
  rw [hclosed p, hall]
  exact decide_eq_true (mem_teardown p)

def closing : Owner → Bool
  | .destroying _ _ | .destroyed => true
  | _ => false

theorem idle_of_closing {s : State} (hs : Inv s) (h : closing s.owner = true) (i : Nat) :
    (s.runs i).active = false := by
  have hnothing : unbinding s.owner s.mRun = some [] := by
    generalize s.owner = owner at h
    cases owner with
    | destroying p todo => rfl
    | destroyed => rfl
    | _ => cases h
  exact hs.idle_of_unbinding hnothing i

theorem closing_step {z : Zlogpull} {s t : State} {a : Act} (hs : Inv s)
    (hclosing : closing s.owner = true) (h : (service z).step s a = some t) :
    ((∃ p, a = .owner (.close p)) ∨ ∃ k m, a = .arrive k m) ∧ closing t.owner = true := by
  cases a with
  | run i ev =>
    obtain ⟨-, pc, hgoes, -⟩ := step_run.mp h
    have hactive := hgoes.active
    rw [idle_of_closing hs hclosing i] at hactive
    cases hactive
  | owner ev =>
    obtain ⟨-, owner, hcalls, rfl⟩ := step_owner h
    generalize s.owner = before at hclosing hcalls
    cases hcalls with
    | close p todo => exact ⟨.inl ⟨p, rfl⟩, by cases todo <;> rfl⟩
    | _ => cases hclosing
  | arrive k m =>
    cases step_arrive h
    exact ⟨.inr ⟨k, m, rfl⟩, hclosing⟩

theorem closing_run {z : Zlogpull} {later : List Act} {s t : State}
    (hs : (service z).Reachable s) (hclosing : closing s.owner = true)
    (h : (service z).run s later = some t) :
    (∀ a ∈ later, (∃ p, a = .owner (.close p)) ∨ ∃ k m, a = .arrive k m) ∧
      closing t.owner = true := by
  refine run_induction (M := service z) (I := fun later t =>
    (∀ a ∈ later, (∃ p, a = .owner (.close p)) ∨ ∃ k m, a = .arrive k m) ∧
      closing t.owner = true) ⟨by simp, hclosing⟩ ?_ later t h
  rintro later t a u ht ⟨hall, hclosing⟩ hstep
  obtain ⟨ha, hclosing'⟩ := closing_step (inv_of_reachable (hs.run ht)) hclosing hstep
  refine ⟨fun b hb => ?_, hclosing'⟩
  rw [List.mem_append, List.mem_singleton] at hb
  rcases hb with hb | rfl
  · exact hall b hb
  · exact ha

def ofOwner : Act → Bool
  | .owner _ => true
  | _ => false

/-- Nothing makes the owner wait any more, the future of an execution that has
ended included. -/
theorem closing_ends {z : Zlogpull} {s : State} (hreach : (service z).Reachable s)
    (hclosing : closing s.owner = true) :
    (service z).Inevitable ofOwner (fun _ => true)
      (fun t => t.owner = .destroyed ∧ ∀ p, t.closed p = true)
      ((remaining s.owner).length + 1) s := by
  have hrest {s t : State} {a : Act} (hs : Inv s) (hclosing : closing s.owner = true)
      (hstep : (service z).step s a = some t) :
      (remaining t.owner).length + (ofOwner a).toNat = (remaining s.owner).length := by
    rcases (closing_step hs hclosing hstep).1 with ⟨p, rfl⟩ | ⟨k, m, rfl⟩
    · obtain ⟨-, owner, hcalls, rfl⟩ := step_owner hstep
      rw [remaining_calls hcalls]
      simp [closedBy, ofOwner, Nat.add_comm]
    · cases step_arrive hstep
      rfl
  refine inevitable_of_variant
    (I := fun t => (service z).Reachable t ∧ closing t.owner = true)
    (fun t : State => (remaining t.owner).length) ?_ ?_ ?_ ?_ ⟨hreach, hclosing⟩
  · rintro s a t ⟨hs, hclosing⟩ - hstep
    exact .inr ⟨hs.step hstep, (closing_step (inv_of_reachable hs) hclosing hstep).2⟩
  · rintro s a t ⟨hs, hclosing⟩ - hown hstep
    have := hrest (inv_of_reachable hs) hclosing hstep
    rw [hown, Bool.toNat_true] at this
    omega
  · rintro s a t ⟨hs, hclosing⟩ - hstep
    have := hrest (inv_of_reachable hs) hclosing hstep
    omega
  · rintro s ⟨hs, hclosing⟩ hgoal
    have hinv := inv_of_reachable hs
    have hended := hinv.ended_of_inactive hinv.fut_lt (idle_of_closing hinv hclosing s.fut)
    cases howner : s.owner with
    | destroying p todo =>
      have hpermits : s.permits z (.close p) = true := by
        cases p with
        | future => exact hended
        | _ => rfl
      exact ⟨.owner (.close p), _, rfl, rfl,
        step_owner_next hpermits (by rw [howner]; exact if_pos rfl)⟩
    | destroyed => exact absurd ⟨howner, closed_of_destroyed hs howner⟩ hgoal
    | _ => simp [howner, closing] at hclosing

def polled : List Resource := [.sock .tcp, .sock .ipc, .sock .inp, .sock .ctl, .pipeRead]

/-- What a step works on of all that a destructor closes. -/
def uses : Act → List Resource
  | .run _ (.bind k _) | .run _ (.receive k _ _) | .run _ (.receiveNone k)
  | .run _ (.receiveThrow k) => [.sock k]
  | .run _ .setup | .run _ .pollBegin | .run _ (.pollReturn _) | .run _ .pollThrow
  | .run _ .pollEnd | .run _ .ret => polled
  | .run _ (.send _) | .run _ .sendThrow | .run _ .sendNothing => [.sock .ctl]
  | .run _ .pollReset => [.pipeRead]
  | .run _ (.test _) | .run _ (.guard _ _) | .run _ (.route _ _) | .run _ .handleCmd => []
  | .owner .pollCancel => [.pipeWrite]
  | .owner .assign | .owner .wait => [.future]
  | .owner (.unbind k _) => [.sock k]
  | .owner (.close p) => [p]
  | .owner .start | .owner .stop | .owner .destroy | .owner (.test _) | .owner .set
  | .owner .launch | .owner .clear | .owner .ret => []
  | .arrive _ _ => []

/-- Nothing that the destructor has closed is used any more, and nothing is
closed twice: there are the other resources to close, in their order, and what
peers send. The destructor comes to its end whatever they send. -/
theorem closed_for_good (z : Zlogpull) (before after : List Act) (p : Resource) (s : State)
    (h : (service z).run (service z).init (before ++ .owner (.close p) :: after) = some s) :
    (∀ a ∈ after, p ∉ uses a) ∧
      (∀ a ∈ after, (∃ q, a = .owner (.close q)) ∨ ∃ k m, a = .arrive k m) ∧
      closes (before ++ .owner (.close p) :: after) ++ remaining s.owner = teardown ∧
      (service z).Inevitable ofOwner (fun _ => true)
        (fun t => t.owner = .destroyed ∧ ∀ q, t.closed q = true)
        ((remaining s.owner).length + 1) s := by
  obtain ⟨u, hu, htail⟩ := (run_append_eq_some _).mp h
  obtain ⟨v, hv, hafter⟩ := (run_cons_eq_some _).mp htail
  have hv' : (service z).Reachable v := Machine.Reachable.step ⟨before, hu⟩ hv
  have hclosing : closing v.owner = true := by
    obtain ⟨-, owner, hcalls, rfl⟩ := step_owner hv
    generalize u.owner = o at hcalls
    cases hcalls with
    | close p todo => cases todo <;> rfl
  obtain ⟨hall, hclosing'⟩ := closing_run hv' hclosing hafter
  have horder := (torn_of_run h).order
  -- A second close of the same resource would be a second place in the list.
  have honce : p ∉ closes after := by
    have hnodup : (closes before ++ p :: closes after).Nodup := by
      have hinitial : closes before ++ p :: closes after <+: teardown := ⟨remaining s.owner, by
        simpa [closes, closedBy] using horder⟩
      exact hinitial.sublist.nodup (by decide)
    exact (List.nodup_cons.mp (List.nodup_append.mp hnodup).2.1).1
  refine ⟨fun a ha hp => ?_, hall, horder, closing_ends (Machine.Reachable.run hv' hafter)
    hclosing'⟩
  rcases hall a ha with ⟨q, rfl⟩ | ⟨k, m, rfl⟩
  · cases List.mem_singleton.mp hp
    exact honce (List.mem_flatMap.mpr ⟨_, ha, List.mem_singleton_self _⟩)
  · cases hp

def destruction : List Act :=
  [.owner .destroy, .owner (.test true), .owner .clear, .owner .pollCancel,
    .run 0 (.bind .tcp true), .run 0 (.bind .ipc true), .run 0 (.bind .inp true),
    .run 0 (.bind .ctl true), .run 0 .setup, .run 0 (.test false), .run 0 .ret, .owner .wait,
    .owner (.unbind .tcp true), .owner (.unbind .ipc true), .owner (.unbind .inp true),
    .owner (.unbind .ctl true), .owner .ret, .owner (.close .pipeRead), .owner (.close .pipeWrite),
    .owner (.close .future)]

def leftToClose : List Act := [.arrive .inp ⟨[97], []⟩, .owner (.close (.sock .inp))]

theorem closed_for_good_destruction :
    ∃ s, (service sample).run (service sample).init
        (destruction ++ .owner (.close (.sock .ctl)) :: leftToClose) = some s ∧
      remaining s.owner = [.sock .ipc, .sock .tcp] ∧
      (∀ a ∈ leftToClose, .sock .ctl ∉ uses a) ∧
      (service sample).Inevitable ofOwner (fun _ => true)
        (fun t => t.owner = .destroyed ∧ ∀ q, t.closed q = true) 3 s := by
  have hclosed := closed_for_good sample destruction leftToClose (.sock .ctl) _ rfl
  exact ⟨_, rfl, rfl, hclosed.1, hclosed.2.2.2⟩

end Zmqlog.Teardown
