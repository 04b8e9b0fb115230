import Zmqlog.Stopping
import Zmqlog.Turn

/-! What the owner can count on over many calls. A `start()` never waits for
the execution before it, and as long as there is room in the pipe, calls of
`stop()` and `start()` bring the service back to its poll, whatever state it
has come to. -/
namespace Zmqlog.Recovery
open Transition Zmqpp Control Service Step Lifecycle Progress Wakeup PipeBytes Teardown Stopping
open Turn

def startRank : Owner → Nat
  | .startTest => 4
  | .startSet => 3
  | .startLaunch => 2
  | .startAssign => 1
  | _ => 0

theorem ended_of_startAssign {s : State} (hinv : Inv s) (h : s.owner = .startAssign) :
    (s.runs s.fut).ended = true := by
  have hfut : s.fut + 2 = s.launched := by simpa [h] using hinv.fut
  apply hinv.ended_of_inactive (by omega)
  by_contra hactive
  have := (hinv.single s.fut (by simpa using hactive)).1
  omega

theorem startRank_step {z : Zlogpull} {s t : State} {a : Act} (hinv : Inv s)
    (hs : 0 < startRank s.owner) (h : (service z).step s a = some t) :
    (0 < startRank t.owner ∨ t.owner = .idle ∧ t.mRun = true) ∧
      startRank t.owner + (ofOwner a).toNat ≤ startRank s.owner := by
  cases a with
  | run i ev =>
    obtain ⟨-, pc, -, rfl⟩ := step_run.mp h
    simp [ofOwner, hs]
  | owner ev =>
    obtain ⟨hpermits, owner, hcalls, rfl⟩ := step_owner h
    have hflag := hinv.flag
    generalize s.owner = before at hs hcalls hflag
    cases hcalls with
    | started =>
      have hmRun : s.mRun = true := by simpa [State.permits] using hpermits
      simp [startRank, ofOwner, State.act, hmRun]
    | assign =>
      have hmRun : s.mRun = true := hflag true rfl
      simp [startRank, ofOwner, State.act, hmRun]
    | restart | set | launch => simp [startRank, ofOwner]
    | _ => cases hs
  | arrive k m =>
    cases step_arrive h
    simp [ofOwner, hs]

theorem start_enabled {z : Zlogpull} {s : State} (hinv : Inv s) (hs : 0 < startRank s.owner) :
    ∃ ev t, (service z).step s (.owner ev) = some t := by
  have go (ev : OwnerEv) {owner : Owner} (hpermits : s.permits z ev = true)
      (hnext : s.owner.next ev = some owner) : ∃ ev t, (service z).step s (.owner ev) = some t :=
    ⟨ev, _, step_owner_next hpermits hnext⟩
  have hended := ended_of_startAssign hinv
  generalize s.owner = owner at go hs hended
  cases owner with
  | startTest => exact go (.test s.mRun) (by simp [State.permits]) rfl
  | startSet => exact go .set rfl rfl
  | startLaunch => exact go .launch rfl rfl
  | startAssign => exact go .assign (hended rfl) rfl
  | _ => cases hs

theorem start_ends {z : Zlogpull} {s : State} (hreach : (service z).Reachable s)
    (hs : 0 < startRank s.owner) :
    (service z).Inevitable ofOwner (fun _ => true) (fun t => t.owner = .idle ∧ t.mRun = true) 5
      s := by
  have hends : (service z).Inevitable ofOwner (fun _ => true)
      (fun t => t.owner = .idle ∧ t.mRun = true) (startRank s.owner + 1) s := by
    refine inevitable_of_variant
      (I := fun t => (service z).Reachable t ∧ 0 < startRank t.owner)
      (fun t : State => startRank t.owner) ?_ ?_ ?_ ?_ ⟨hreach, hs⟩
    · rintro s a t ⟨hreach, hs⟩ - hstep
      rcases (startRank_step (inv_of_reachable hreach) hs hstep).1 with hrank | hidle
      · exact .inr ⟨hreach.step hstep, hrank⟩
      · exact .inl hidle
    · rintro s a t ⟨hreach, hs⟩ - hown hstep
      have := (startRank_step (inv_of_reachable hreach) hs hstep).2
      rw [hown, Bool.toNat_true] at this
      omega
    · rintro s a t ⟨hreach, hs⟩ - hstep
      have := (startRank_step (inv_of_reachable hreach) hs hstep).2
      omega
    · rintro s ⟨hreach, hs⟩ -
      obtain ⟨ev, t, hstep⟩ := start_enabled (z := z) (inv_of_reachable hreach) hs
      exact ⟨.owner ev, t, rfl, rfl, hstep⟩
  apply hends.mono
  cases s.owner <;> simp [startRank]

/-- A `start()` returns with the flag set after at most four steps of its own,
and waits for nobody: where it lets go of the old future, the execution behind
that has ended. -/
theorem start_returns (z : Zlogpull) (s : State) (h : (service z).Reachable s) :
    (0 < startRank s.owner →
        (service z).Inevitable ofOwner (fun _ => true)
          (fun t => t.owner = .idle ∧ t.mRun = true) 5 s) ∧
      (s.owner = .startAssign → (s.runs s.fut).ended = true) :=
  ⟨start_ends h, ended_of_startAssign (inv_of_reachable h)⟩

theorem start_returns_quickStop :
    ∃ s, (service sample).run (service sample).init
        (quickStop 0 ++ [.owner .ret, .owner .start, .owner (.test false)]) = some s ∧
      s.owner = .startSet ∧
      (service sample).Inevitable ofOwner (fun _ => true)
        (fun t => t.owner = .idle ∧ t.mRun = true) 5 s :=
  ⟨_, rfl, rfl, (start_returns sample _
    ⟨quickStop 0 ++ [.owner .ret, .owner .start, .owner (.test false)], rfl⟩).1 (by decide)⟩

/-- Every bind is done, an execution is about to poll, and the owner is free. -/
structure InService (s : State) : Prop where
  owner : s.owner = .idle
  mRun : s.mRun = true
  pc : s.runs s.fut = .poll
  bound : ∀ k, s.bound k = true

/-- Steps of the service alone, none of them a failure of zmqpp, lead there. -/
def Leads (z : Zlogpull) (s : State) (P : State → Prop) : Prop :=
  ∃ later t, (service z).run s later = some t ∧ P t ∧
    ∀ a ∈ later, ofService a = true ∧ faultless a = true

section
variable {z : Zlogpull} {s : State} {P Q : State → Prop}

theorem Leads.trans (h : Leads z s P) (hs : (service z).Reachable s)
    (hnext : ∀ t, (service z).Reachable t → P t → Leads z t Q) : Leads z s Q := by
  obtain ⟨first, t, hfirst, hP, hall⟩ := h
  obtain ⟨second, u, hsecond, hQ, hall'⟩ := hnext t (hs.run hfirst) hP
  refine ⟨first ++ second, u, (run_append_eq_some _).mpr ⟨t, hfirst, hsecond⟩, hQ, ?_⟩
  intro a ha
  rcases List.mem_append.mp ha with ha | ha
  · exact hall a ha
  · exact hall' a ha

theorem Leads.next (ev : OwnerEv) {owner : Owner} (hpermits : s.permits z ev = true)
    (hnext : s.owner.next ev = some owner) (h : P ((s.act ev).proceed owner)) : Leads z s P :=
  ⟨[.owner ev], _, (run_singleton _ _ _).trans (step_owner_next hpermits hnext), h,
    by simp [ofService, faultless]⟩

end

theorem run_begin (z : Zlogpull) {s : State} {i : Nat} (hpc : s.runs i = .bind bindOrder)
    (hmRun : s.mRun = true) :
    (service z).run s (bindOrder.map (fun k => .run i (.bind k true)) ++ [.run i .setup] ++
        [.run i (.test true)]) =
      some { s with
        bound := fun _ => true
        runs := Function.update s.runs i .poll } := by
  have htest {t : State} (hpc : t.runs i = .test) (hmRun : t.mRun = true) :
      (service z).step t (.run i (.test true)) = some (t.goto i .poll) :=
    step_next (by simp [State.enables, hmRun]) (by rw [hpc]; rfl)
  rw [run_append, run_setup z hpc, Option.bind_some, run_singleton, htest]
  · simp only [State.goto, Function.update_idem]
  · exact Function.update_self ..
  · exact hmRun

theorem begun_leads {z : Zlogpull} {s : State} (hs : Begun s) : Leads z s InService :=
  ⟨_, _, run_begin z hs.pc hs.mRun, ⟨hs.owner, hs.mRun, Function.update_self .., fun _ => rfl⟩,
    by simp [bindOrder, ofService, faultless]⟩

theorem launch_leads {z : Zlogpull} {s : State} (hreach : (service z).Reachable s)
    (howner : s.owner = .startLaunch) : Leads z s InService := by
  have hmRun : s.mRun = true := (inv_of_reachable hreach).flag true (by rw [howner]; rfl)
  have hlaunch : Leads z s fun t => t.owner = .startAssign ∧ t.mRun = true ∧
      t.launched = s.launched + 1 ∧ t.runs s.launched = .bind bindOrder :=
    .next .launch rfl (by rw [howner]; rfl) ⟨rfl, hmRun, rfl, Function.update_self ..⟩
  refine hlaunch.trans hreach fun t ht ⟨howner', hset, hlaunched, hpc⟩ => ?_
  have hbegun : Leads z t Begun := by
    refine .next .assign (ended_of_startAssign (inv_of_reachable ht) howner')
      (by rw [howner']; rfl) ⟨rfl, hset, ?_, ?_⟩
    · simpa [State.act, hlaunched] using hpc
    · simp [State.act, hlaunched]
  exact hbegun.trans ht fun _ _ => begun_leads

theorem set_leads {z : Zlogpull} {s : State} (hreach : (service z).Reachable s)
    (howner : s.owner = .startSet) : Leads z s InService := by
  have hset : Leads z s fun t => t.owner = .startLaunch :=
    .next .set rfl (by rw [howner]; rfl) rfl
  exact hset.trans hreach fun _ ht => launch_leads ht

theorem restart_leads {z : Zlogpull} {s : State} (hreach : (service z).Reachable s)
    (howner : s.owner = .startTest) (hmRun : s.mRun = false) : Leads z s InService := by
  have htest : Leads z s fun t => t.owner = .startSet :=
    .next (.test false) (by simp [State.permits, hmRun]) (by rw [howner]; rfl) rfl
  exact htest.trans hreach fun _ ht => set_leads ht

theorem stopped_leads {z : Zlogpull} {s : State} (hreach : (service z).Reachable s)
    (howner : s.owner = .idle) (hmRun : s.mRun = false) : Leads z s InService := by
  have hstart : Leads z s fun t => t.owner = .startTest ∧ t.mRun = false :=
    .next .start rfl (by rw [howner]; rfl) ⟨rfl, hmRun⟩
  exact hstart.trans hreach fun _ ht h => restart_leads ht h.1 h.2

theorem Calls.ne_destroy {o o' : Owner} {ev : OwnerEv} (h : Calls o ev o')
    (ho : 0 < ownerRank o) : ev ≠ .destroy ∧ ev ≠ .set := by
  cases h with
  | destroy | set => cases ho
  | _ => simp

theorem stop_returns {z : Zlogpull} {s t : State} {a : Act} (hreach : (service z).Reachable s)
    (hs : 0 < ownerRank s.owner) (huser : byUser s.owner = true)
    (h : (service z).step s a = some t) :
    byUser t.owner = true ∧ (0 < ownerRank t.owner ∨ t.owner = .idle ∧ t.mRun = false) := by
  have hinv := inv_of_reachable hreach
  have hset : a ≠ .owner .set := by
    rintro rfl
    obtain ⟨-, owner, hcalls, -⟩ := step_owner h
    exact (Calls.ne_destroy hcalls hs).2 rfl
  have huser' : byUser t.owner = true := by
    cases a with
    | run i ev =>
      obtain ⟨-, pc, -, rfl⟩ := step_run.mp h
      simpa using huser
    | owner ev =>
      obtain ⟨-, owner, hcalls, rfl⟩ := step_owner h
      rw [proceed_owner, byUser_calls hcalls, huser]
      simpa using (Calls.ne_destroy hcalls hs).1
    | arrive k m =>
      cases step_arrive h
      exact huser
  refine ⟨huser', ?_⟩
  rcases (stopRank_step hinv hs h).1 with hrank | hidle | hgone | hgone
  · exact .inl hrank
  · exact .inr ⟨hidle, (cleared_step hinv (mRun_of_ownerRank hinv hs) hset h).1⟩
  · rw [hgone] at huser'
    cases huser'
  · rw [hgone] at huser'
    cases huser'

theorem stop_leads {z : Zlogpull} {s : State} (hreach : (service z).Reachable s)
    (hs : 0 < ownerRank s.owner) (huser : byUser s.owner = true) (hwrite : Writable z s) :
    Leads z s InService := by
  have hends : (service z).Inevitable ofService faultless
      (fun t => t.owner = .idle ∧ t.mRun = false) (stopRank s + 1) s := by
    refine stop_variant (I := fun t => ((service z).Reachable t ∧ 0 < ownerRank t.owner) ∧
      byUser t.owner = true ∧ Writable z t) (fun _ => And.left) ?_
      (fun s hs _ => not_jammed hs.2.2) ⟨⟨hreach, hs⟩, huser, hwrite⟩
    rintro s a t ⟨⟨hreach, hs⟩, huser, hwrite⟩ hstep
    obtain ⟨huser', hrank | hidle⟩ := stop_returns hreach hs huser hstep
    · exact .inr ⟨⟨hreach.step hstep, hrank⟩, huser', writable_step hs hwrite hstep⟩
    · exact .inl hidle
  obtain ⟨later, t, hrun, hgoal, hall⟩ := hends.reaches
  have hstopped : Leads z s fun t => t.owner = .idle ∧ t.mRun = false :=
    ⟨later, t, hrun, hgoal, hall⟩
  exact hstopped.trans hreach fun _ ht h => stopped_leads ht h.1 h.2

theorem clear_leads {z : Zlogpull} {s : State} (hreach : (service z).Reachable s)
    (howner : s.owner = .stopClear .user) (hroom : z.room s.pipe = true) :
    Leads z s InService := by
  have hclear : Leads z s fun t => t.owner = .stopWrite .user ∧ z.room t.pipe = true :=
    .next .clear rfl (by rw [howner]; rfl) ⟨rfl, hroom⟩
  refine hclear.trans hreach fun t ht ⟨howner', hroom'⟩ => stop_leads ht ?_ ?_ fun _ _ => hroom'
  · rw [howner']
    decide
  · rw [howner']
    decide

theorem test_leads {z : Zlogpull} {s : State} (hreach : (service z).Reachable s)
    (howner : s.owner = .stopTest .user) (hroom : s.mRun = true → z.room s.pipe = true) :
    Leads z s InService := by
  have htest : s.permits z (.test s.mRun) = true := by simp [State.permits]
  cases hmRun : s.mRun with
  | true =>
    have hclear : Leads z s fun t => t.owner = .stopClear .user ∧ z.room t.pipe = true :=
      .next (.test s.mRun) htest (by rw [howner, hmRun]; rfl) ⟨rfl, hroom hmRun⟩
    exact hclear.trans hreach fun _ ht h => clear_leads ht h.1 h.2
  | false =>
    have hidle : Leads z s fun t => t.owner = .idle ∧ t.mRun = false :=
      .next (.test s.mRun) htest (by rw [howner, hmRun]; rfl) ⟨rfl, hmRun⟩
    exact hidle.trans hreach fun _ ht h => stopped_leads ht h.1 h.2

theorem idle_leads {z : Zlogpull} {s : State} (hreach : (service z).Reachable s)
    (howner : s.owner = .idle) (hroom : s.mRun = true → z.room s.pipe = true) :
    Leads z s InService := by
  have hstop : Leads z s fun t => t.owner = .stopTest .user ∧
      (t.mRun = true → z.room t.pipe = true) :=
    .next .stop rfl (by rw [howner]; rfl) ⟨rfl, hroom⟩
  exact hstop.trans hreach fun _ ht h => test_leads ht h.1 h.2

/-- Where a `stop()` has its write to come, there is room for the byte. -/
def Roomy (z : Zlogpull) (s : State) : Prop :=
  s.mRun = true ∨ (∃ c, s.owner = .stopWrite c) → z.room s.pipe = true

theorem user_leads {z : Zlogpull} {s : State} (hreach : (service z).Reachable s)
    (huser : byUser s.owner = true) (hroomy : Roomy z s) : Leads z s InService := by
  have hinv := inv_of_reachable hreach
  have hroom (hmRun : s.mRun = true) : z.room s.pipe = true := hroomy (.inl hmRun)
  have stopping (h : 0 < ownerRank s.owner) : Leads z s InService :=
    stop_leads hreach h huser fun c howner => hroomy (.inr ⟨c, howner⟩)
  -- A `start()` with nothing left to launch comes back to the caller.
  have returning (h : Leads z s fun t => t.owner = .idle ∧
      (t.mRun = true → z.room t.pipe = true)) : Leads z s InService :=
    h.trans hreach fun _ ht h => idle_leads ht h.1 h.2
  cases howner : s.owner with
  | idle => exact idle_leads hreach howner hroom
  | startTest =>
    cases hmRun : s.mRun with
    | true =>
      exact returning (.next (.test true) (by simp [State.permits, hmRun])
        (by rw [howner]; rfl) ⟨rfl, hroom⟩)
    | false => exact restart_leads hreach howner hmRun
  | startSet => exact set_leads hreach howner
  | startLaunch => exact launch_leads hreach howner
  | startAssign =>
    exact returning (.next .assign (ended_of_startAssign hinv howner) (by rw [howner]; rfl)
      ⟨rfl, hroom⟩)
  | stopTest c =>
    have hc : c = .user := by simpa [howner, byUser] using huser
    exact test_leads hreach (hc ▸ howner) hroom
  | stopClear c =>
    have hc : c = .user := by simpa [howner, byUser] using huser
    exact clear_leads hreach (hc ▸ howner) (hroom (hinv.flag true (by rw [howner]; rfl)))
  | stopWrite c | stopWait c | stopEnd c threw => exact stopping (by simp [howner, ownerRank])
  | unbind c k todo =>
    refine stopping ?_
    simp only [howner, ownerRank]
    omega
  | destroying | destroyed | terminated => simp [howner, byUser] at huser

theorem inbox_subset {z : Zlogpull} {s t : State} {a : Act} (hown : ofService a = true)
    (h : (service z).step s a = some t) (k : Sock) : t.inbox k ⊆ s.inbox k := by
  cases a with
  | run i ev =>
    obtain ⟨-, pc, -, rfl⟩ := step_run.mp h
    cases ev with
    | receive j n m =>
      by_cases hk : k = j
      · simpa [State.effect, hk] using List.eraseIdx_subset
      · simp [State.effect, hk]
    | bind j ok => cases ok <;> exact List.Subset.refl _
    | _ => exact List.Subset.refl _
  | owner ev =>
    obtain ⟨-, owner, -, rfl⟩ := step_owner h
    simp
  | arrive j m => cases hown

theorem mem_of_exchanged {z : Zlogpull} {s t : State} {a : Act} {m : Wire}
    (h : (service z).step s a = some t) (ha : exchanged a = [.request m]) :
    m ∈ s.inbox .ctl := by
  cases a with
  | run i ev =>
    obtain ⟨henables, -⟩ := step_run.mp h
    cases ev with
    | receive k n m' =>
      cases k with
      | ctl =>
        cases ha
        simp only [State.enables, Bool.and_eq_true, beq_iff_eq] at henables
        exact List.mem_of_getElem? henables.1
      | _ => cases ha
    | _ => cases ha
  | _ => cases ha

theorem orderly_of_faultless {z : Zlogpull} {acts later : List Act} {s t : State}
    (h : (service z).run s later = some t)
    (hall : ∀ a ∈ later, ofService a = true ∧ faultless a = true) (horderly : Orderly z acts)
    (hwaiting : ∀ m ∈ s.inbox .ctl, Decodes z.codec m.parts) : Orderly z (acts ++ later) := by
  suffices hboth : Orderly z (acts ++ later) ∧ ∀ m ∈ t.inbox .ctl, Decodes z.codec m.parts from
    hboth.1
  revert hall
  refine run_induction (M := service z) (I := fun later t =>
    (∀ a ∈ later, ofService a = true ∧ faultless a = true) →
      Orderly z (acts ++ later) ∧ ∀ m ∈ t.inbox .ctl, Decodes z.codec m.parts) ?_ ?_ later t h
  · intro _
    exact ⟨by simpa using horderly, hwaiting⟩
  · intro later t a u _ ih hstep hall
    obtain ⟨hpast, hdecodes⟩ := ih fun b hb => hall b (List.mem_append_left _ hb)
    obtain ⟨hown, hfaultless⟩ := hall a (by simp)
    refine ⟨?_, fun m hm => hdecodes m (inbox_subset hown hstep .ctl hm)⟩
    rw [← List.append_assoc, orderly_snoc]
    refine ⟨hpast, fun m ha => hdecodes m (mem_of_exchanged hstep ha), ?_⟩
    unfold failsToSend
    split
    · cases hfaultless
    · rfl

/-- As long as the service is not being destroyed, and a byte that a `stop()` has
to write finds room, its owner can have it back at its poll with every socket
bound: be it that an exception has left `run()`, that binds have failed or that
a `stop()` has thrown. The control channel does not come back by that: it
answers again if the history of its requests is orderly, and only then. -/
theorem recoverable (z : Zlogpull) (acts : List Act) (s : State)
    (h : (service z).run (service z).init acts = some s) (huser : byUser s.owner = true)
    (hroomy : Roomy z s) :
    ∃ later t, (service z).run s later = some t ∧ InService t ∧
      (∀ a ∈ later, ofService a = true ∧ faultless a = true) ∧
      (¬ Orderly z acts → t.rep = .sending) ∧
      (Orderly z acts → (∀ m ∈ s.inbox .ctl, Decodes z.codec m.parts) → t.rep = .receiving) := by
  obtain ⟨later, t, hlater, ht, hall⟩ := user_leads ⟨acts, h⟩ huser hroomy
  obtain ⟨hturn, hstranded⟩ := rep_of_poll ((run_append_eq_some _).mpr ⟨s, h, hlater⟩) ht.pc
  refine ⟨later, t, hlater, ht, hall, fun hdisorder => ?_, fun horderly hwaiting => ?_⟩
  · exact hstranded fun hlonger => hdisorder hlonger.of_append
  · exact (hturn (orderly_of_faultless hlater hall horderly hwaiting)).1

/-- A receive of `in_ctl` is interrupted, and the reply without parts takes
the execution out of `run()` while the flag is set. -/
def lostWorker : List Act :=
  [.run 0 (.bind .tcp true), .run 0 (.bind .ipc true), .run 0 (.bind .inp true),
    .run 0 (.bind .ctl true), .run 0 .setup, .run 0 (.test true), .run 0 .pollBegin,
    .arrive .ctl askIpc, .run 0 (.pollReturn [.sock .ctl]), .run 0 (.guard .ctl true),
    .run 0 (.receiveNone .ctl), .run 0 .sendNothing]

theorem recoverable_lostWorker :
    ∃ s, (service sample).run (service sample).init lostWorker = some s ∧
      s.runs 0 = .escaped ∧ s.mRun = true ∧
      ∃ later t, (service sample).run s later = some t ∧ InService t ∧ t.rep = .receiving := by
  have horderly : Orderly sample lostWorker :=
    ⟨by simp [lostWorker, exchanges, exchanged], by decide⟩
  obtain ⟨later, t, hlater, ht, -, -, hrep⟩ := recoverable sample lostWorker _ rfl rfl fun _ => rfl
  refine ⟨_, rfl, rfl, rfl, later, t, hlater, ht, hrep horderly fun m hm => ?_⟩
  cases List.mem_singleton.mp hm
  exact ⟨Command.getFrontend.code, by decide, fun _ => ⟨Frontend.ipc.code, by decide⟩⟩

end Zmqlog.Recovery
